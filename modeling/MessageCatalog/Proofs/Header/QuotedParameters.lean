import MessageCatalog.Header.MediaType
import MessageCatalog.Proofs.Table
import MessageCatalog.Proofs.Text.Splitting
import MessageCatalog.Proofs.Text.Trimming

/-! Quoted parameter values. Media types are split at semicolons before quotes are considered, so
exactly the values without semicolon are returned, and what follows a semicolon is read as further
parameters. -/
namespace MessageCatalog.Header

def lowered (name : String) : String := String.ofList (name.toList.map Char.toLower)

def quotedPart (parameter : String × String) : String :=
  " " ++ parameter.1 ++ "=\"" ++ parameter.2 ++ "\""

def quotedText (type subtype : String) (parameters : List (String × String)) : String :=
  type ++ "/" ++ subtype ++ String.join (parameters.map fun p => ";" ++ quotedPart p)

/-- Survives cutting and trimming before `mark`. -/
structure Token (mark : Char) (name : String) : Prop where
  nonempty : name ≠ ""
  solid : ∀ c ∈ name.toList, Text.isBlank c = false
  unmarked : mark ∉ name.toList
  whole : ';' ∉ name.toList

def MediaType.Returns (m : MediaType) (parameter : String × String) : Prop :=
  ∀ name, lowered name = lowered parameter.1 → m.parameter? name = some parameter.2

section Parts

variable {mark : Char} {name : String} {part : List Char} {p : String × String}
  {parameters : List (String × String)}

theorem Token.trim_eq (token : Token mark name) : Text.trim name.toList = name.toList :=
  Text.trim_eq_self_of_solid token.solid

theorem token_of_isAlphanum (nonempty : name ≠ "") (letters : name.toList.all Char.isAlphanum = true)
    (other : mark.isAlphanum = false) : Token mark name where
  nonempty := nonempty
  solid c member := by
    have bounds : 0x20 < c.toNat ∧ c.toNat < 0x7F := by
      have letter := List.all_eq_true.1 letters c member
      change (decide ('A'.val ≤ c.val ∧ c.val ≤ 'Z'.val) ||
        decide ('a'.val ≤ c.val) && decide (c.val ≤ 'z'.val) ||
        decide ('0'.val ≤ c.val) && decide (c.val ≤ '9'.val)) = true at letter
      simp only [Bool.or_eq_true, Bool.and_eq_true, decide_eq_true_eq, UInt32.le_iff_toNat_le,
        Char.toNat_val, Char.reduceToNat] at letter
      omega
    exact Text.isBlank_of_visible bounds.1 bounds.2
  unmarked member := by
    rw [List.all_eq_true.1 letters _ member] at other
    cases other
  whole member := by
    cases List.all_eq_true.1 letters ';' member

theorem unquote_quoted (value : List Char) : unquote ('"' :: (value ++ ['"'])) = value := by
  simp [unquote]

theorem unquote_sublist (value : List Char) : (unquote value).Sublist value := by
  unfold unquote
  split
  · split
    · exact (List.dropLast_sublist _).trans (List.sublist_cons_self _ _)
    · exact List.Sublist.refl _
  · exact List.Sublist.refl _

theorem mem_of_parseParameter {c : Char} (said : parseParameter part = some p)
    (member : c ∈ p.2.toList) : c ∈ part := by
  unfold parseParameter at said
  split at said
  · cases said
  · next before after parted =>
    obtain ⟨rfl, -⟩ := Text.cut_eq_some_iff.1 parted
    simp only [Option.ite_none_left_eq_some, Option.some.injEq] at said
    obtain ⟨-, rfl⟩ := said
    rw [String.toList_ofList] at member
    have inValue := Text.mem_of_mem_trim ((unquote_sublist _).subset member)
    exact List.mem_append_right before (List.mem_cons_of_mem '=' inValue)

theorem parseParameter_quotedPart (token : Token '=' p.1) :
    parseParameter (quotedPart p).toList = some (lowered p.1, p.2) := by
  have parted : Text.cut '=' (quotedPart p).toList =
      some (' ' :: p.1.toList, '"' :: (p.2.toList ++ ['"'])) := by
    refine Text.cut_eq_some_iff.2 ⟨by simp [quotedPart], ?_⟩
    simpa using token.unmarked
  have name : Text.trim (' ' :: p.1.toList) = p.1.toList :=
    (Text.trim_cons_of_isBlank rfl _).trans token.trim_eq
  have value : Text.trim ('"' :: (p.2.toList ++ ['"'])) = '"' :: (p.2.toList ++ ['"']) := by
    refine Text.trim_eq_self (fun c first => ?_) fun c last => ?_
    · cases first
      rfl
    · rw [← List.cons_append, List.getLast?_concat] at last
      cases last
      rfl
  simp [parseParameter, parted, name, value, token.nonempty, unquote_quoted, lowered]

theorem splitOn_led (front : List Char) (texts : List (List Char)) :
    (front ++ texts.flatMap (mark :: ·)).splitOn mark =
      front.splitOn mark ++ texts.flatMap (·.splitOn mark) := by
  induction texts generalizing front with
  | nil => simp
  | cons text texts ih =>
    rw [List.flatMap_cons, List.flatMap_cons, List.cons_append, List.splitOn_append_cons_self, ih]

/-- A semicolon in the value yields further parts. -/
def said (p : String × String) : List (String × String) :=
  ((quotedPart p).toList.splitOn ';').filterMap parseParameter

theorem said_eq (token : Token '=' p.1) (whole : ';' ∉ p.2.toList) :
    said p = [(lowered p.1, p.2)] := by
  have uncut : ';' ∉ (quotedPart p).toList := by
    simp [quotedPart, token.whole, whole]
  rw [said, List.splitOn_eq_singleton uncut]
  simp [parseParameter_quotedPart token]

theorem notMem_of_mem_said {pair : String × String} (member : pair ∈ said p) :
    ';' ∉ pair.2.toList := by
  obtain ⟨part, inText, parsed⟩ := List.mem_filterMap.1 member
  exact fun inside => Text.notMem_of_mem_splitOn inText (mem_of_parseParameter parsed inside)

theorem flatMap_said (named : ∀ p ∈ parameters, Token '=' p.1)
    (whole : ∀ p ∈ parameters, ';' ∉ p.2.toList) :
    parameters.flatMap said = parameters.map fun p => (lowered p.1, p.2) := by
  induction parameters with
  | nil => rfl
  | cons p parameters ih =>
    obtain ⟨token, named⟩ := List.forall_mem_cons.1 named
    obtain ⟨uncut, whole⟩ := List.forall_mem_cons.1 whole
    rw [List.flatMap_cons, said_eq token uncut, ih named whole, List.map_cons, List.singleton_append]

end Parts

namespace MediaType

variable {type subtype : String} {parameters before after : List (String × String)}
  {p : String × String}

theorem parse?_quoted (typed : Token '/' type) (subtyped : Token '/' subtype) :
    parse? (quotedText type subtype parameters) =
      some ⟨type, subtype, Table.empty.insertAll (parameters.flatMap said)⟩ := by
  have essence : ∀ c ∈ type.toList ++ '/' :: subtype.toList, Text.isBlank c = false := by
    simp only [List.forall_mem_append, List.forall_mem_cons]
    exact ⟨typed.solid, rfl, subtyped.solid⟩
  have uncut : ';' ∉ type.toList ++ '/' :: subtype.toList := by
    simp [typed.whole, subtyped.whole]
  have text : (quotedText type subtype parameters).toList =
      (type.toList ++ '/' :: subtype.toList) ++
        (parameters.map fun p => (quotedPart p).toList).flatMap (';' :: ·) := by
    simp [quotedText, List.flatMap_map, String.toList_join]
  have parts : (quotedText type subtype parameters).toList.splitOn ';' =
      (type.toList ++ '/' :: subtype.toList) ::
        parameters.flatMap fun p => (quotedPart p).toList.splitOn ';' := by
    rw [text, splitOn_led, List.splitOn_eq_singleton uncut, List.flatMap_map]
    rfl
  have parted : Text.cut '/' (type.toList ++ '/' :: subtype.toList) =
      some (type.toList, subtype.toList) :=
    Text.cut_eq_some_iff.2 ⟨rfl, typed.unmarked⟩
  have pairs : (parameters.flatMap fun p =>
      (quotedPart p).toList.splitOn ';').filterMap parseParameter = parameters.flatMap said :=
    List.filterMap_flatMap
  simp [parse?, parts, pairs, Text.trim_eq_self_of_solid essence, parted, typed.trim_eq,
    subtyped.trim_eq, typed.nonempty, subtyped.nonempty]

section Returned

variable {m : MediaType}

/-- A value is returned if neither it nor any later value has a semicolon. -/
theorem returns_of_whole (named : ∀ p ∈ parameters, Token '=' p.1)
    (distinct : (parameters.map fun p => lowered p.1).Nodup)
    (given : m.parameters = Table.empty.insertAll (parameters.flatMap said))
    (parted : parameters = before ++ p :: after) (whole : ∀ q ∈ p :: after, ';' ∉ q.2.toList) :
    m.Returns p := by
  subst parted
  have absent : lowered p.1 ∉ (after.map fun q => (lowered q.1, q.2)).map Prod.fst := by
    rw [List.map_append, List.map_cons] at distinct
    rw [List.map_map]
    exact (List.nodup_cons.1 (List.nodup_append.1 distinct).2.1).1
  intro name same
  rw [parameter?, ← lowered, same, given, List.flatMap_append,
    flatMap_said (List.forall_mem_append.1 named).2 whole, List.map_cons]
  exact Table.find?_insertAll_last absent

/-- No parameter returns a value with a semicolon. -/
theorem not_returns_of_mem (given : m.parameters = Table.empty.insertAll (parameters.flatMap said))
    (member : ';' ∈ p.2.toList) : ¬m.Returns p := by
  intro returned
  have found : m.parameters.find? (lowered p.1) = some p.2 := returned p.1 rfl
  rw [given] at found
  have pair := (Table.mem_of_find?_insertAll found).resolve_right (by simp)
  obtain ⟨q, -, inSaid⟩ := List.mem_flatMap.1 pair
  exact notMem_of_mem_said inSaid member

end Returned

/-- A media type with quoted parameters is parsed for all values. A value without semicolon is
returned under any casing of its name unless a later value has one, and a value with a semicolon is
never returned. -/
theorem parse?_quotedText (type subtype : String) (parameters : List (String × String))
    (typed : Token '/' type) (subtyped : Token '/' subtype) (named : ∀ p ∈ parameters, Token '=' p.1)
    (distinct : (parameters.map fun p => lowered p.1).Nodup) :
    ∃ m, parse? (quotedText type subtype parameters) = some m ∧
      m.type = type ∧ m.subtype = subtype ∧
      (∀ before p after, parameters = before ++ p :: after →
        (∀ q ∈ p :: after, ';' ∉ q.2.toList) → m.Returns p) ∧
      (∀ p ∈ parameters, ';' ∈ p.2.toList → ¬m.Returns p) ∧
      ((∀ p ∈ parameters, m.Returns p) ↔ ∀ p ∈ parameters, ';' ∉ p.2.toList) := by
  refine ⟨_, parse?_quoted typed subtyped, rfl, rfl, fun _ _ _ => returns_of_whole named distinct rfl,
    fun _ _ => not_returns_of_mem rfl, fun returned p member cut => ?_, fun whole p member => ?_⟩
  · exact not_returns_of_mem rfl cut (returned p member)
  · obtain ⟨before, after, parted⟩ := List.append_of_mem member
    refine returns_of_whole named distinct rfl parted fun q later => whole q ?_
    rw [parted]
    exact List.mem_append_right before later

/-- Values with outer blanks, an equals sign and a slash, under names of other casing. -/
theorem parse?_quotedText_note :
    ∃ m, parse? "text/plain; charset=\"UTF-8\"; Note=\" a = b/c, \"" = some m ∧
      m.type = "text" ∧ m.subtype = "plain" ∧
      m.parameter? "CharSet" = some "UTF-8" ∧ m.parameter? "NOTE" = some " a = b/c, " := by
  have token {name : String} (letters : name ≠ "" ∧ name.toList.all Char.isAlphanum = true) :
      Token '/' name ∧ Token '=' name :=
    ⟨token_of_isAlphanum letters.1 letters.2 rfl, token_of_isAlphanum letters.1 letters.2 rfl⟩
  have named : ∀ p ∈ [("charset", "UTF-8"), ("Note", " a = b/c, ")], Token '=' p.1 := by
    simpa using ⟨(token (by decide)).2, (token (by decide)).2⟩
  obtain ⟨m, parsed, type, subtype, -, -, returned⟩ :=
    parse?_quotedText "text" "plain" _ (token (by decide)).1 (token (by decide)).1 named (by decide)
  have all := returned.2 (by decide)
  refine ⟨m, parsed, type, subtype, ?_, ?_⟩
  · exact all ("charset", "UTF-8") (by simp) "CharSet" (by decide)
  · exact all ("Note", " a = b/c, ") (by simp) "NOTE" (by decide)

/-- The value is cut at the semicolon and keeps its opening quote. -/
theorem quoted_semicolon_cuts :
    quotedText "text" "plain" [("note", "a;b")] = "text/plain; note=\"a;b\"" ∧
      '"' ∉ "a;b".toList ∧
      ∃ m, parse? "text/plain; note=\"a;b\"" = some m ∧ m.parameter? "note" = some "\"a" := by
  refine ⟨by decide +kernel, by decide, ?_⟩
  exact ⟨⟨"text", "plain", Table.empty.insertAll [("note", "\"a")]⟩, by decide +kernel,
    by decide +kernel⟩

end MediaType
end MessageCatalog.Header
