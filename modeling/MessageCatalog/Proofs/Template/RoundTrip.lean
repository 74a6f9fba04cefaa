import MessageCatalog.Proofs.Template.StoreRuns
import MessageCatalog.Proofs.Template.Wrapping
import MessageCatalog.Template.Store

/-! Rendered templates are parsed back as heading and entries, in order, for all texts and one-line
notes. -/
namespace MessageCatalog.Template

open Text

section Headings

def Heading.text (h : Heading) : List Char :=
  h.fields.flatMap fun (name, value) => (name ++ ": " ++ value ++ "\n").toList

def Heading.block (h : Heading) : Block :=
  ⟨[], [], [("msgid", ""), ("msgstr", String.ofList h.text)]⟩

def Heading.names : List String :=
  ["Project-Id-Version", "Report-Msgid-Bugs-To", "POT-Creation-Date", "PO-Revision-Date",
    "Last-Translator", "Language-Team", "MIME-Version", "Content-Type",
    "Content-Transfer-Encoding", "Plural-Forms", "X-Generator"]

theorem Heading.name_mem_names (h : Heading) : ∀ field ∈ h.fields, field.1 ∈ names := by
  simp [fields, optionalField, names, or_imp, forall_and]

theorem Heading.encode_name :
    ∀ name ∈ names, Quoted.encode (name ++ ": ").toList = (name ++ ": ").toList := by
  decide

theorem Heading.fieldLine_eq {h : Heading} {field : String × String} (member : field ∈ h.fields) :
    fieldLine field.1 field.2 =
      Quoted.between (Quoted.encode (field.1 ++ ": " ++ field.2 ++ "\n").toList) := by
  have name := encode_name field.1 (h.name_mem_names field member)
  have whole : Quoted.encode (field.1 ++ ": " ++ field.2 ++ "\n").toList =
      (field.1 ++ ": ").toList ++ Quoted.encode field.2.toList ++ ['\\', 'n'] := by
    rw [String.toList_append, String.toList_append, Quoted.encode_append, Quoted.encode_append,
      name]
    rfl
  rw [fieldLine, whole]

theorem Heading.lines_eq (h : Heading) :
    h.lines = ("msgid".toList ++ ' ' :: Quoted.between (Quoted.encode [])) ::
      ("msgstr".toList ++ ' ' :: Quoted.between (Quoted.encode [])) ::
      (h.fields.map fun (name, value) => (name ++ ": " ++ value ++ "\n").toList).map
        fun text => Quoted.between (Quoted.encode text) := by
  rw [lines, List.map_map]
  exact congrArg (_ :: _ :: ·) (List.map_congr_left fun _ member => fieldLine_eq member)

theorem Heading.isLine_of_mem_lines {h : Heading} {line : List Char} (member : line ∈ h.lines) :
    IsLine line := by
  rw [lines_eq] at member
  rcases List.mem_cons.1 member with rfl | member
  · exact isLine_keyword (by decide) []
  rcases List.mem_cons.1 member with rfl | member
  · exact isLine_keyword (by decide) []
  obtain ⟨text, -, rfl⟩ := List.mem_map.1 member
  exact isLine_between text

theorem Heading.ofLines?_lines (h : Heading) : Block.ofLines? h.lines = some h.block := by
  have nothing : gathered [] = some ([], ⟨[], [], []⟩) := rfl
  have text := gathered_keyword (by decide : IsKeyword "msgstr".toList) nothing []
    (h.fields.map fun (name, value) => (name ++ ": " ++ value ++ "\n").toList)
  have whole := gathered_keyword (by decide : IsKeyword "msgid".toList) text [] []
  rw [List.map_nil, List.nil_append, List.append_nil, ← lines_eq] at whole
  rw [Block.ofLines?, whole]
  rfl

end Headings

section Entries

def Entry.fields (e : Entry) : List (String × String) :=
  e.context.toList.map ("msgctxt", ·) ++ [("msgid", e.id)] ++
  match e.pluralId with
  | some id => [("msgid_plural", id), ("msgstr[0]", ""), ("msgstr[1]", "")]
  | none => [("msgstr", "")]

def Entry.block (e : Entry) : Block := ⟨e.comments, e.references, e.fields⟩

def Unbroken (notes : List String) : Prop := ∀ note ∈ notes, '\n' ∉ note.toList

structure Entry.OneLine (e : Entry) : Prop where
  comments : Unbroken e.comments
  references : Unbroken e.references
  flags : Unbroken e.flags

theorem Entry.messageLines_eq (e : Entry) :
    e.messageLines = e.fields.flatMap fun (name, text) => keywordLines name.toList text.toList := by
  rw [messageLines, fields]
  cases e.context <;> cases e.pluralId <;> simp

def Entry.keywords : List String :=
  ["msgctxt", "msgid", "msgid_plural", "msgstr[0]", "msgstr[1]", "msgstr"]

theorem Entry.name_mem_keywords (e : Entry) : ∀ field ∈ e.fields, field.1 ∈ keywords := by
  cases plural : e.pluralId <;> simp [fields, keywords, plural, or_imp, forall_and]

theorem Entry.isKeyword : ∀ name ∈ keywords, IsKeyword name.toList := by
  decide

theorem gathered_fields {fields : List (String × String)}
    (h : ∀ field ∈ fields, IsKeyword field.1.toList) :
    gathered (fields.flatMap fun (name, text) => keywordLines name.toList text.toList) =
      some ([], ⟨[], [], fields⟩) := by
  induction fields with
  | nil => rfl
  | cons field fields ih =>
    obtain ⟨first, others⟩ := List.forall_mem_cons.1 h
    have whole := gathered_keywordLines first (ih others) field.2.toList
    rwa [String.ofList_toList, String.ofList_toList] at whole

def Entry.lines (e : Entry) : List (List Char) := e.noteLines ++ e.messageLines

theorem Entry.ofLines?_lines (e : Entry) : Block.ofLines? e.lines = some e.block := by
  have message : gathered e.messageLines = some ([], ⟨[], [], e.fields⟩) := by
    rw [messageLines_eq]
    exact gathered_fields fun field member => isKeyword _ (e.name_mem_keywords field member)
  have flags : gathered ((if e.flags.isEmpty then [] else
      [("#, " ++ ", ".intercalate e.flags).toList]) ++ e.messageLines) =
        some ([], ⟨[], [], e.fields⟩) := by
    split
    · exact message
    · exact gathered_flags message _
  have noted := gathered_comments (gathered_references flags e.references) e.comments
  rw [List.append_nil, List.append_nil] at noted
  rw [Block.ofLines?, lines, noteLines, List.append_assoc, List.append_assoc, noted]
  rfl

theorem notMem_intercalate {c : Char} {mark : List Char} {texts : List (List Char)}
    (outside : c ∉ mark) (h : ∀ text ∈ texts, c ∉ text) : c ∉ mark.intercalate texts := by
  induction texts using List.twoStepInduction with
  | nil => exact List.not_mem_nil
  | singleton text =>
    rw [List.intercalate_singleton]
    exact h text (List.mem_singleton_self text)
  | cons_cons text next texts _ ih =>
    obtain ⟨first, others⟩ := List.forall_mem_cons.1 h
    rw [List.intercalate_cons_cons, List.mem_append, List.mem_append, not_or, not_or]
    exact ⟨⟨first, outside⟩, ih next others⟩

theorem isLine_note {mark : String} (h : IsLine mark.toList) {text : String}
    (unbroken : '\n' ∉ text.toList) : IsLine (mark ++ text).toList := by
  rw [String.toList_append]
  refine ⟨List.append_ne_nil_of_left_ne_nil h.1 _, ?_⟩
  rw [List.mem_append, not_or]
  exact ⟨h.2, unbroken⟩

theorem Entry.lines_ne_nil (e : Entry) : e.lines ≠ [] := by
  intro empty
  have read := e.ofLines?_lines
  rw [empty] at read
  have nothing : [] = e.fields := congrArg Block.fields (Option.some.inj read)
  simp [fields] at nothing

theorem Entry.isLine_of_mem_messageLines {e : Entry} {line : List Char}
    (member : line ∈ e.messageLines) : IsLine line := by
  rw [messageLines_eq] at member
  obtain ⟨field, inside, here⟩ := List.mem_flatMap.1 member
  exact isLine_keywordLines (isKeyword _ (e.name_mem_keywords field inside)) _ here

theorem Entry.isLine_of_mem_lines {e : Entry} (h : e.OneLine) {line : List Char}
    (member : line ∈ e.lines) : IsLine line := by
  rw [lines, noteLines, List.mem_append, List.mem_append, List.mem_append] at member
  rcases member with ((comment | reference) | flags) | message
  · obtain ⟨text, inside, rfl⟩ := List.mem_map.1 comment
    exact isLine_note (by decide) (h.comments text inside)
  · obtain ⟨text, inside, rfl⟩ := List.mem_map.1 reference
    exact isLine_note (by decide) (h.references text inside)
  · split at flags
    · exact absurd flags List.not_mem_nil
    · rw [List.mem_singleton.1 flags]
      refine isLine_note (by decide) ?_
      rw [String.toList_intercalate]
      refine notMem_intercalate (by decide) fun text inside => ?_
      obtain ⟨flag, among, rfl⟩ := List.mem_map.1 inside
      exact h.flags flag among
  · exact isLine_of_mem_messageLines message

end Entries

theorem readBlocks_render {t : Template} (h : ∀ e ∈ t.entries, e.OneLine) :
    readBlocks t.render = some (t.heading.block :: t.entries.map Entry.block) := by
  have parts : t.written =
      (t.heading.lines :: t.entries.map Entry.lines).flatMap fun b => unlines (b ++ [[]]) := by
    rw [List.flatMap_cons, List.flatMap_map]
    rfl
  have parted : paragraphs t.written = t.heading.lines :: t.entries.map Entry.lines := by
    rw [parts]
    refine paragraphs_written ?_ ?_
    · exact List.forall_mem_cons.2 ⟨List.cons_ne_nil _ _,
        List.forall_mem_map.2 fun e _ => e.lines_ne_nil⟩
    · exact List.forall_mem_cons.2 ⟨fun line => Heading.isLine_of_mem_lines,
        List.forall_mem_map.2 fun e member line => Entry.isLine_of_mem_lines (h e member)⟩
  have entries : Block.ofLines? ∘ Entry.lines = fun e => pure e.block :=
    funext Entry.ofLines?_lines
  rw [readBlocks, render, String.toList_ofList, parted, List.mapM_cons, Heading.ofLines?_lines,
    List.mapM_map, entries, List.mapM_pure]
  rfl

section Runs

theorem Unbroken.noted {notes : List String} {value : String} (h : Unbroken notes)
    (unbroken : '\n' ∉ value.toList) : Unbroken (noted notes value) := by
  rw [Template.noted]
  split
  · exact h
  · exact List.forall_mem_append.2 ⟨h, List.forall_mem_singleton.2 unbroken⟩

def Edit.OneLine : Edit → Prop
  | plural _ => True
  | reference value | flag value | comment value => '\n' ∉ value.toList

instance : DecidablePred Edit.OneLine
  | .plural _ => inferInstanceAs (Decidable True)
  | .reference value | .flag value | .comment value =>
    inferInstanceAs (Decidable ('\n' ∉ value.toList))

theorem Entry.OneLine.apply {e : Entry} {edit : Edit} (h : e.OneLine) (one : edit.OneLine) :
    (e.apply edit).OneLine := by
  cases edit with
  | plural id => rw [Entry.apply]; split <;> exact ⟨h.comments, h.references, h.flags⟩
  | reference value => exact ⟨h.comments, h.references.noted one, h.flags⟩
  | flag value => exact ⟨h.comments, h.references, h.flags.noted one⟩
  | comment value => exact ⟨h.comments.noted one, h.references, h.flags⟩

theorem Entry.OneLine.applyAll {e : Entry} {edits : List Edit} (h : e.OneLine)
    (one : ∀ edit ∈ edits, edit.OneLine) : (e.applyAll edits).OneLine := by
  induction edits generalizing e with
  | nil => exact h
  | cons edit edits ih =>
    obtain ⟨first, others⟩ := List.forall_mem_cons.1 one
    exact ih (h.apply first) others

/-- What is recorded for a key was given by some call. -/
theorem mem_recorded {key : Key} {calls : List Call} {edit : Edit}
    (member : edit ∈ recorded key calls) : ∃ call ∈ calls, edit ∈ call.edits := by
  obtain ⟨call, inside, here⟩ := List.mem_flatMap.1 member
  have given := (List.dropWhile_sublist _).mem inside
  split at here
  · exact ⟨call, given, here⟩
  · exact absurd here List.not_mem_nil

theorem oneLine_run (path : Files.Path) (heading : Heading) {calls : List Call}
    (one : ∀ call ∈ calls, ∀ edit ∈ call.edits, edit.OneLine) :
    ∀ e ∈ ((new path heading).run calls).entries, e.OneLine := by
  rw [(keeps_run path heading calls).entries]
  refine List.forall_mem_map.2 fun key _ => ?_
  have blank : (Entry.new key.context key.id).OneLine :=
    ⟨List.forall_mem_nil _, List.forall_mem_nil _, List.forall_mem_nil _⟩
  refine blank.applyAll fun edit member => ?_
  obtain ⟨call, given, here⟩ := mem_recorded member
  exact one call given edit here

end Runs

/-- One-line notes stay one-line notes over a run, and a template with such notes is parsed back as
its heading and entries, for all texts. -/
theorem readBlocks_render_of_run (path : Files.Path) (heading : Heading) (calls : List Call) :
    let t := (new path heading).run calls
    ((∀ call ∈ calls, ∀ edit ∈ call.edits, edit.OneLine) → ∀ e ∈ t.entries, e.OneLine) ∧
    ((∀ e ∈ t.entries, e.OneLine) →
      readBlocks t.render = some (t.heading.block :: t.entries.map Entry.block)) :=
  ⟨oneLine_run path heading, readBlocks_render⟩

def noticeCalls : List Call :=
  [.addPlural none "%d file" "%d files" "list.c:7",
    .edit none "%d file" (.flag "c-format"),
    .add (some "") "%d file" "list.c:9",
    .add (some " menu") "Say \"hi\"\nor\tgo \\ away" "menu.c:2",
    .edit (some "menu") "Say \"hi\"\nor\tgo \\ away" (.comment "\"Escape\" leaves")]

theorem readBlocks_render_of_run_notices :
    let heading := Heading.standard "2024-03-01 09:05+0200"
    let t := (new ⟨"app.pot"⟩ heading).run noticeCalls
    (∀ call ∈ noticeCalls, ∀ edit ∈ call.edits, edit.OneLine) ∧
    (∀ e ∈ t.entries, e.OneLine) ∧
    readBlocks t.render = some [heading.block,
      ⟨[], ["list.c:7"], [("msgid", "%d file"), ("msgid_plural", "%d files"), ("msgstr[0]", ""),
        ("msgstr[1]", "")]⟩,
      ⟨[], ["list.c:9"], [("msgctxt", ""), ("msgid", "%d file"), ("msgstr", "")]⟩,
      ⟨["\"Escape\" leaves"], ["menu.c:2"], [("msgctxt", "menu"),
        ("msgid", "Say \"hi\"\nor\tgo \\ away"), ("msgstr", "")]⟩] := by
  intro heading t
  have one : ∀ call ∈ noticeCalls, ∀ edit ∈ call.edits, edit.OneLine := by decide
  have both := readBlocks_render_of_run ⟨"app.pot"⟩ heading noticeCalls
  exact ⟨one, both.1 one, (both.2 (both.1 one)).trans rfl⟩

end MessageCatalog.Template
