import MessageCatalog.Header.Fields
import MessageCatalog.Proofs.Table
import MessageCatalog.Proofs.Text.Splitting
import MessageCatalog.Proofs.Text.Trimming

/-! Well-shaped fields: trimmed one-line names and values, names nonempty and without colon. Every
parsed field is one. -/
namespace MessageCatalog.Header

/-- A field expressible on one line. -/
structure Stated (name value : String) : Prop where
  named : name ≠ ""
  name_trimmed : Text.trimmed name = name
  value_trimmed : Text.trimmed value = value
  plain : ':' ∉ name.toList
  name_unbroken : '\n' ∉ name.toList ∧ '\r' ∉ name.toList
  value_unbroken : '\n' ∉ value.toList ∧ '\r' ∉ value.toList

/-- A line states the trimmed sides of its first colon, unless the name is blank. -/
theorem parseLine_eq_some_iff {line : List Char} {name value : String} :
    parseLine line = some (name, value) ↔
      ∃ before after, line = before ++ ':' :: after ∧ ':' ∉ before ∧ Text.trim before ≠ [] ∧
        String.ofList (Text.trim before) = name ∧ String.ofList (Text.trim after) = value := by
  unfold parseLine
  constructor
  · intro said
    split at said
    · cases said
    · next before after parted =>
      obtain ⟨line, plain⟩ := Text.cut_eq_some_iff.1 parted
      simp only [List.isEmpty_iff, Option.ite_none_left_eq_some, Option.some.injEq,
        Prod.mk.injEq] at said
      exact ⟨before, after, line, plain, said.1, said.2.1, said.2.2⟩
  · rintro ⟨before, after, line, plain, named, rfl, rfl⟩
    simp [Text.cut_eq_some_iff.2 ⟨line, plain⟩, named]

theorem stated_of_parseLine {line : List Char} {name value : String}
    (unbroken : ∀ c ∈ line, isLineEnd c = false) (said : parseLine line = some (name, value)) :
    Stated name value := by
  obtain ⟨before, after, rfl, plain, named, rfl, rfl⟩ := parseLine_eq_some_iff.1 said
  -- Nothing stands in a name or a value that does not stand in the line.
  have notEnd {c : Char} {part : List Char} (inLine : part ⊆ before ++ ':' :: after)
      (ends : isLineEnd c = true) : c ∉ (String.ofList (Text.trim part)).toList := by
    intro member
    rw [String.toList_ofList] at member
    have inside := unbroken c (inLine (Text.mem_of_mem_trim member))
    simp [ends] at inside
  have first : before ⊆ before ++ ':' :: after := by simp
  have second : after ⊆ before ++ ':' :: after := by simp
  have trimmed (part : List Char) :
      Text.trimmed (String.ofList (Text.trim part)) = String.ofList (Text.trim part) := by
    simpa [Text.trimmed] using Text.trimmed_trimmed (String.ofList part)
  exact {
    named := by simpa using named
    name_trimmed := trimmed before
    value_trimmed := trimmed after
    plain := by
      intro member
      rw [String.toList_ofList] at member
      exact plain (Text.mem_of_mem_trim member)
    name_unbroken := ⟨notEnd first rfl, notEnd first rfl⟩
    value_unbroken := ⟨notEnd second rfl, notEnd second rfl⟩ }

theorem stated_of_mem_statements {text : List Char} {name value : String}
    (member : (name, value) ∈ statements text) : Stated name value := by
  obtain ⟨line, inText, said⟩ := List.mem_filterMap.1 member
  exact stated_of_parseLine (Text.not_of_mem_splitOnP inText) said

def Fields.WellShaped (fields : Fields) : Prop :=
  ∀ name value, fields.find? name = some value → Stated name value

namespace Fields

theorem wellShaped_empty : WellShaped Table.empty := nofun

theorem wellShaped_parse (text : List Char) : (parse text).WellShaped := by
  intro name value found
  rcases Table.mem_of_find?_insertAll found with member | before
  · exact stated_of_mem_statements member
  · cases before

theorem WellShaped.extend {fields other : Fields} (shaped : fields.WellShaped)
    (otherShaped : other.WellShaped) : (fields.extend other).WellShaped := by
  intro name value found
  rcases Table.mem_of_find?_insertAll found with member | before
  · exact otherShaped name value (Table.find?_eq_some_iff.2 member)
  · exact shaped name value before

end Fields
end MessageCatalog.Header
