import MessageCatalog.Proofs.Header.Lines

/-! Parsing and rendering of header fields. The last line of a name counts, silent lines do not, and
rendering parsed fields is inverted by parsing. -/
namespace MessageCatalog.Header

def lines (text : List Char) : List (List Char) := text.splitOnP isLineEnd

/-- A line with its trimmed name and value. -/
inductive Says : List Char → String → String → Prop
  | parted (name value : List Char) (plain : ':' ∉ name) (named : ∃ c ∈ name, Text.isBlank c = false) :
      Says (name ++ ':' :: value) (String.ofList (Text.trim name)) (String.ofList (Text.trim value))

/-- The last line for a name has this value. -/
def LastSays (lines : List (List Char)) (name value : String) : Prop :=
  ∃ before line after, lines = before ++ line :: after ∧ Says line name value ∧
    ∀ later ∈ after, ∀ other, ¬Says later name other

def speaks (line : List Char) : Bool :=
  line.contains ':' && (line.takeWhile (· != ':')).any fun c => !Text.isBlank c

section Lines

variable {line : List Char} {name value : String} {before after : List (List Char)}

theorem trim_ne_nil_iff : Text.trim line ≠ [] ↔ ∃ c ∈ line, Text.isBlank c = false := by
  simp [Text.trim_eq_nil_iff]

theorem says_iff : Says line name value ↔ parseLine line = some (name, value) := by
  rw [parseLine_eq_some_iff]
  constructor
  · rintro ⟨first, second, plain, named⟩
    exact ⟨first, second, rfl, plain, trim_ne_nil_iff.2 named, rfl, rfl⟩
  · rintro ⟨first, second, rfl, plain, named, rfl, rfl⟩
    exact .parted first second plain (trim_ne_nil_iff.1 named)

theorem parseLine_of_not_speaks (silent : speaks line = false) : parseLine line = none := by
  refine Option.eq_none_iff_forall_ne_some.2 fun (name, value) said => ?_
  obtain ⟨first, second, plain, named⟩ := says_iff.2 said
  have upToColon : (first ++ ':' :: second).takeWhile (· != ':') = first := by
    rw [List.takeWhile_append_of_pos]
    · simp
    · intro c member
      have other : c ≠ ':' := fun same => plain (same ▸ member)
      simpa using other
  obtain ⟨c, member, kept⟩ := named
  have blank : ∀ c ∈ first, Text.isBlank c = true := by simpa [speaks, upToColon] using silent
  rw [blank c member] at kept
  cases kept

/-- Lines that state nothing may be dropped. -/
theorem filterMap_parseLine_speaking (texts : List (List Char)) :
    (texts.filter speaks).filterMap parseLine = texts.filterMap parseLine := by
  rw [List.filterMap_filter]
  refine List.filterMap_congr fun line _ => ?_
  split
  · rfl
  · next silent => exact (parseLine_of_not_speaks (Bool.eq_false_iff.2 silent)).symm

theorem statements_ended {texts : List (List Char)}
    (unbroken : ∀ line ∈ texts, ∀ c ∈ line, isLineEnd c = false) :
    statements (texts.flatMap (· ++ ['\n'])) = texts.filterMap parseLine := by
  induction texts with
  | nil => simp [statements, parseLine, Text.cut]
  | cons line texts ih =>
    obtain ⟨first, others⟩ := List.forall_mem_cons.1 unbroken
    rw [List.flatMap_cons, List.append_assoc, List.singleton_append, statements_append first,
      ih others]
    cases said : parseLine line <;> simp [said]

end Lines

namespace Fields

variable {fields : Fields} {name value : String} {text : List Char}

def render (fields : Fields) : List Char := fields.entries.flatMap fieldText

theorem trimmedField_of_stated (h : Stated name value) :
    trimmedField (name, value) = (name, value) := by
  rw [trimmedField, h.name_trimmed, h.value_trimmed]

theorem onLine_of_stated (h : Stated name value) : OnLine (name, value) where
  plain := h.plain
  named := by
    intro blank
    have empty : Text.trimmed name = "" := by rw [Text.trimmed, blank]
    exact h.named (h.name_trimmed.symm.trans empty)
  name := unbroken_iff.2 h.name_unbroken
  value := unbroken_iff.2 h.value_unbroken

theorem stated_of_mem (shaped : fields.WellShaped) {field : String × String}
    (member : field ∈ fields.entries) : Stated field.1 field.2 :=
  shaped field.1 field.2 (Table.find?_eq_some_iff.2 member)

theorem nodup_names (fields : Fields) : (fields.entries.map Prod.fst).Nodup := by
  rw [List.Nodup, List.pairwise_map]
  refine fields.sorted.imp fun less same => ?_
  rw [same] at less
  exact String.lt_irrefl _ less

theorem parse_render_of_wellShaped (shaped : fields.WellShaped) : parse fields.render = fields := by
  have onLine : ∀ field ∈ fields.entries, OnLine field := fun field member =>
    onLine_of_stated (stated_of_mem shaped member)
  have trimmed : ∀ field ∈ fields.entries, trimmedField field = field := fun field member =>
    trimmedField_of_stated (stated_of_mem shaped member)
  have names : (fields.entries.map fun field => Text.trimmed field.1) = fields.entries.map Prod.fst :=
    List.map_congr_left fun field member => congrArg Prod.fst (trimmed field member)
  have read := parse_flatMap_fieldText onLine (names ▸ fields.nodup_names)
  rw [List.map_congr_left trimmed, List.map_id'] at read
  exact Table.eq_of_entries_perm read

theorem parse_eq_of_statements {other : List Char} (same : statements text = statements other) :
    parse text = parse other :=
  congrArg Table.empty.insertAll same

/-- The last line that states a name gives its value. -/
theorem find?_parse_iff : (parse text).find? name = some value ↔ LastSays (lines text) name value := by
  have absent {after : List (List Char)} :
      name ∉ (after.filterMap parseLine).map Prod.fst ↔
        ∀ later ∈ after, ∀ other, ¬Says later name other := by
    simp only [says_iff, List.mem_map, List.mem_filterMap]
    grind
  rw [parse, Table.find?_insertAll_eq_some_iff]
  constructor
  · rintro ⟨earlier, rest, said, unsaid⟩
    obtain ⟨front, back, parted, -, said⟩ := List.filterMap_eq_append_iff.1 said
    obtain ⟨skipped, line, after, rfl, -, here, rfl⟩ := List.filterMap_eq_cons_iff.1 said
    refine ⟨front ++ skipped, line, after, ?_, says_iff.2 here, absent.1 unsaid⟩
    rw [lines, parted, List.append_assoc]
  · rintro ⟨before, line, after, parted, here, unsaid⟩
    refine ⟨before.filterMap parseLine, after.filterMap parseLine, ?_, absent.2 unsaid⟩
    rw [statements, ← lines, parted, List.filterMap_append, List.filterMap_cons_some (says_iff.1 here)]

/-- Parsing and rendering are inverse on well-shaped fields, which are exactly the parsed ones; the
last line of a name counts and lines that state nothing do not. -/
theorem parse_retraction :
    (∀ fields : Fields, parse fields.render = fields ↔ fields.WellShaped) ∧
      ∀ text, parse (parse text).render = parse text ∧
        (∀ name value, (parse text).find? name = some value ↔ LastSays (lines text) name value) ∧
        parse (((lines text).filter speaks).flatMap (· ++ ['\n'])) = parse text := by
  refine ⟨fun fields => ⟨fun read => ?_, parse_render_of_wellShaped⟩,
    fun text => ⟨parse_render_of_wellShaped (wellShaped_parse text), fun _ _ => find?_parse_iff, ?_⟩⟩
  · rw [← read]
    exact wellShaped_parse _
  · have unbroken : ∀ line ∈ (lines text).filter speaks, ∀ c ∈ line, isLineEnd c = false :=
      fun line member => Text.not_of_mem_splitOnP (List.mem_of_mem_filter member)
    refine parse_eq_of_statements ?_
    rw [statements_ended unbroken, filterMap_parseLine_speaking]
    rfl

example : (parse "A: 1\r\n\r\n: no name\nno separator\nA:  two: parts  \n".toList).entries =
    [("A", "two: parts")] := by
  decide +kernel

end Fields
end MessageCatalog.Header
