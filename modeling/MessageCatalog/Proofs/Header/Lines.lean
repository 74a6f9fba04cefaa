import MessageCatalog.Proofs.Header.Statements

/-! Fields written one per line. If names have no colon and are not blank, and nothing breaks a
line, exactly the trimmed fields are stated. -/
namespace MessageCatalog.Header

def fieldText (field : String × String) : List Char := (field.1 ++ ": " ++ field.2 ++ "\n").toList

def Unbroken (text : String) : Prop := ∀ c ∈ text.toList, isLineEnd c = false

instance (text : String) : Decidable (Unbroken text) :=
  List.decidableBAll (fun c => isLineEnd c = false) text.toList

theorem unbroken_iff {text : String} :
    Unbroken text ↔ '\n' ∉ text.toList ∧ '\r' ∉ text.toList := by
  simp only [Unbroken, isLineEnd, Bool.or_eq_false_iff, beq_eq_false_iff_ne, imp_and, forall_and,
    List.forall_mem_ne']

@[simp] theorem unbroken_append {a b : String} : Unbroken (a ++ b) ↔ Unbroken a ∧ Unbroken b := by
  simp [Unbroken, or_imp, forall_and]

/-- A field that is parsed back from its line. -/
structure OnLine (field : String × String) : Prop where
  plain : ':' ∉ field.1.toList
  named : Text.trim field.1.toList ≠ []
  name : Unbroken field.1
  value : Unbroken field.2

def trimmedField (field : String × String) : String × String :=
  (Text.trimmed field.1, Text.trimmed field.2)

section Lines

variable {line rest : List Char} {field : String × String} {fields : List (String × String)}

/-- The first line is parsed on its own. -/
theorem statements_append (unbroken : ∀ c ∈ line, isLineEnd c = false) :
    statements (line ++ '\n' :: rest) = (parseLine line).toList ++ statements rest := by
  have ends : isLineEnd '\n' = true := rfl
  rw [statements, List.splitOnP_append_cons line rest ends, List.splitOnP_eq_singleton unbroken]
  cases said : parseLine line <;> simp [said, statements]

theorem parseLine_field (h : OnLine field) :
    parseLine (field.1 ++ ": " ++ field.2).toList = some (trimmedField field) := by
  have blank := Text.trim_cons_of_isBlank (c := ' ') rfl field.2.toList
  refine parseLine_eq_some_iff.2
    ⟨field.1.toList, ' ' :: field.2.toList, ?_, h.plain, h.named, rfl, ?_⟩
  · simp
  · rw [blank]
    rfl

theorem statements_fieldText (h : OnLine field) :
    statements (fieldText field ++ rest) = trimmedField field :: statements rest := by
  have line : fieldText field ++ rest = (field.1 ++ ": " ++ field.2).toList ++ '\n' :: rest := by
    simp [fieldText]
  have between : Unbroken ": " := by decide
  have unbroken : Unbroken (field.1 ++ ": " ++ field.2) := by simp [h.name, between, h.value]
  rw [line, statements_append unbroken, parseLine_field h]
  rfl

/-- Each field on its line is stated, in order, and nothing else. -/
theorem statements_flatMap_fieldText (h : ∀ field ∈ fields, OnLine field) :
    statements (fields.flatMap fieldText) = fields.map trimmedField := by
  induction fields with
  | nil => simp [statements, parseLine, Text.cut]
  | cons field fields ih =>
    obtain ⟨first, others⟩ := List.forall_mem_cons.1 h
    rw [List.flatMap_cons, statements_fieldText first, ih others, List.map_cons]

/-- Fields with distinct names are parsed back, trimmed. -/
theorem parse_flatMap_fieldText (h : ∀ field ∈ fields, OnLine field)
    (distinct : (fields.map fun field => Text.trimmed field.1).Nodup) :
    (Fields.parse (fields.flatMap fieldText)).entries.Perm (fields.map trimmedField) := by
  rw [Fields.parse, statements_flatMap_fieldText h]
  refine Table.entries_insertAll_perm ?_
  rwa [List.map_map]

end Lines

end MessageCatalog.Header
