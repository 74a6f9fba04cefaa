import MessageCatalog.Proofs.Header.Lines
import MessageCatalog.Proofs.Template.RoundTrip
import MessageCatalog.Proofs.Text.Runs

/-! The heading of a template parsed as a catalog header has its fields, trimmed, and no others.
Values may hold quotes, backslashes, tabs and colons, but no line breaks. -/
namespace MessageCatalog.Template

open Text

/-- Concatenates the quoted lines after `msgstr`. -/
def continuedText? (text : List Char) : Option (List Char) :=
  let after := ((text.splitOn '\n').dropWhile (· != "msgstr \"\"".toList)).tail
  let quoted := after.takeWhile (·.head? == some '"')
  (quoted.mapM fun line => (quoted? line).bind Quoted.decode).map List.flatten

section Continued

theorem mapM_decode_quoted? (texts : List (List Char)) :
    ((texts.map fun text => Quoted.between (Quoted.encode text)).mapM fun line =>
      (quoted? line).bind Quoted.decode) = some texts := by
  induction texts with
  | nil => rfl
  | cons text texts ih => simp [ih, quoted?_between, Quoted.decode_encode]

theorem Heading.splitOn_written (h : Heading) : h.written.splitOn '\n' = h.lines ++ [[], []] := by
  have unbroken : ∀ line ∈ h.lines ++ [[]], '\n' ∉ line := by
    intro line member
    rcases List.mem_append.1 member with written | blank
    · exact (isLine_of_mem_lines written).2
    · rw [List.mem_singleton.1 blank]
      exact List.not_mem_nil
  rw [written, unlines, splitOn_ended unbroken, List.append_assoc]
  rfl

theorem Heading.continuedText?_render (h : Heading) :
    continuedText? h.render.toList = some (h.fields.flatMap Header.fieldText) := by
  have after : ((h.written.splitOn '\n').dropWhile (· != "msgstr \"\"".toList)).tail =
      (h.fields.map Header.fieldText).map (fun text => Quoted.between (Quoted.encode text)) ++
        [[], []] := by
    rw [splitOn_written, lines_eq]
    rfl
  have quoted : ∀ line ∈ (h.fields.map Header.fieldText).map
      (fun text => Quoted.between (Quoted.encode text)), (line.head? == some '"') = true :=
    List.forall_mem_map.2 fun text _ => rfl
  have rendered : h.render.toList = h.written := String.toList_ofList
  rw [continuedText?, rendered, after,
    takeWhile_append_of_stops quoted (by simp), mapM_decode_quoted?, Option.map_some,
    ← List.flatMap_def]

end Continued

namespace Heading

def strings (h : Heading) : List String :=
  [h.projectIdVersion, h.created, h.mimeVersion, h.contentType, h.transferEncoding,
    h.generator] ++
    [h.reportBugsTo, h.revised, h.translator, h.translatorEmail, h.team, h.teamEmail,
      h.pluralForms].flatMap Option.toList

section Values

variable {h : Heading} {name email : Option String}

theorem unbroken_person (named : ∀ s ∈ name, Header.Unbroken s)
    (addressed : ∀ s ∈ email, Header.Unbroken s) : Header.Unbroken (person name email) := by
  have opening : Header.Unbroken "<" := by decide
  have spaced : Header.Unbroken " <" := by decide
  have closing : Header.Unbroken ">" := by decide
  have whole : Header.Unbroken (name.getD "") := by
    cases name with
    | none => decide
    | some name => exact named name rfl
  cases email with
  | none => exact whole
  | some email =>
    have address : Header.Unbroken email := addressed email rfl
    simp only [person]
    split
    · exact whole
    · split <;> simp [opening, spaced, closing, whole, address]

theorem unbroken_value (given : ∀ s ∈ h.strings, Header.Unbroken s) :
    ∀ field ∈ h.fields, Header.Unbroken field.2 := by
  simp only [strings, List.forall_mem_append, List.forall_mem_cons, List.forall_mem_flatMap,
    Option.mem_toList] at given
  obtain ⟨⟨project, created, mime, content, encoding, generator, -⟩,
    bugs, revised, translator, translatorEmail, team, teamEmail, forms, -⟩ := given
  have revision : Header.Unbroken (h.revised.getD unrevised) := by
    cases stood : h.revised with
    | none => decide
    | some date => exact revised date stood
  simp only [fields, optionalField, List.forall_mem_append, List.forall_mem_cons,
    List.forall_mem_map, Option.mem_toList]
  have person := unbroken_person translator translatorEmail
  have group := unbroken_person team teamEmail
  simpa [project, created, revision, person, group, mime, content, encoding, generator]
    using And.intro bugs forms

theorem onLine (given : ∀ s ∈ h.strings, Header.Unbroken s) :
    ∀ field ∈ h.fields, Header.OnLine field := by
  have names : ∀ name ∈ names, ':' ∉ name.toList ∧ trim name.toList ≠ [] ∧ Header.Unbroken name := by
    decide
  intro field member
  obtain ⟨plain, named, name⟩ := names field.1 (h.name_mem_names field member)
  exact ⟨plain, named, name, unbroken_value given field member⟩

theorem sublist_names (h : Heading) : (h.fields.map Prod.fst).Sublist names := by
  cases bugs : h.reportBugsTo <;> cases forms : h.pluralForms <;>
    simp [fields, optionalField, names, bugs, forms]

theorem trimmed_name : ∀ name ∈ names, trimmed name = name := by decide

end Values

end Heading

/-- The parsed header has exactly the fields of the heading, with trimmed values. -/
theorem fields_of_render (h : Heading) (given : ∀ s ∈ h.strings, Header.Unbroken s) :
    ∃ text, continuedText? h.render.toList = some text ∧
      (Header.Fields.parse text).entries.Perm
        (h.fields.map fun (name, value) => (name, trimmed value)) ∧
      ∀ name value, (Header.Fields.parse text).find? name = some value ↔
        ∃ written, (name, written) ∈ h.fields ∧ trimmed written = value := by
  have names : h.fields.map (fun field => trimmed field.1) = h.fields.map Prod.fst :=
    List.map_congr_left fun field member => Heading.trimmed_name _ (h.name_mem_names field member)
  have distinct : (h.fields.map fun field => trimmed field.1).Nodup := by
    rw [names]
    exact h.sublist_names.nodup (by decide)
  have read := Header.parse_flatMap_fieldText (Heading.onLine given) distinct
  have same : h.fields.map Header.trimmedField =
      h.fields.map fun (name, value) => (name, trimmed value) :=
    List.map_congr_left fun field member => by
      rw [Header.trimmedField, Heading.trimmed_name _ (h.name_mem_names field member)]
  rw [same] at read
  refine ⟨_, h.continuedText?_render, read, fun name value => ?_⟩
  rw [Table.find?_eq_some_iff, read.mem_iff]
  simp

def Heading.scrawled : Heading :=
  { standard "+12024-01-02 03:04+0100" with
    projectIdVersion := " C:\\app \"1.0\"\t", reportBugsTo := some "", team := some "L10n: de",
    teamEmail := some "de@example.org" }

theorem fields_of_render_scrawled :
    (∀ s ∈ Heading.scrawled.strings, Header.Unbroken s) ∧
      ∃ text, continuedText? Heading.scrawled.render.toList = some text ∧
        (Header.Fields.parse text).find? "Project-Id-Version" = some "C:\\app \"1.0\"" ∧
        (Header.Fields.parse text).find? "Report-Msgid-Bugs-To" = some "" ∧
        (Header.Fields.parse text).find? "Language-Team" = some "L10n: de <de@example.org>" := by
  have given : ∀ s ∈ Heading.scrawled.strings, Header.Unbroken s := by decide
  obtain ⟨text, continued, -, found⟩ := fields_of_render Heading.scrawled given
  exact ⟨given, text, continued, (found ..).2 ⟨" C:\\app \"1.0\"\t", by decide, by decide⟩,
    (found ..).2 ⟨"", by decide, by decide⟩,
    (found ..).2 ⟨"L10n: de <de@example.org>", by decide, by decide⟩⟩

end MessageCatalog.Template
