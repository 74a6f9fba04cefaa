import Mathlib.Data.List.Perm.Basic
import MessageCatalog.Proofs.Template.RoundTrip
import MessageCatalog.Proofs.Text.Splitting

/-! Lines of a rendered entry. Texts are encoded and stay in their quotes; notes are written raw,
and lines after a line feed in a note are stray. Only stray lines can forge notes, keywords or
texts. -/
namespace MessageCatalog.Template

open Text

/-- A note, a keyword or a continuation line. -/
inductive TemplateLine (line : List Char) : Prop where
  | note (marked : line.head? = some '#')
  | keyword {name : String} {piece : List Char} (known : name ∈ Entry.keywords)
      (intact : Quoted.Intact piece) (written : line = name.toList ++ ' ' :: Quoted.between piece)
  | continued {piece : List Char} (intact : Quoted.Intact piece)
      (written : line = Quoted.between piece)

def called (name : String) (line : List Char) : Bool := line.takeWhile (· != ' ') == name.toList

/-- One message without foreign lines. -/
structure Unforged (lines : List (List Char)) : Prop where
  kinds : ∀ line ∈ lines, TemplateLine line
  filled : [] ∉ lines
  ids : lines.countP (called "msgid") = 1
  contexts : lines.countP (called "msgctxt") ≤ 1

section Lines

variable {name other : String} {line : List Char}

theorem TemplateLine.ne_nil (h : TemplateLine line) : line ≠ [] := by
  cases h with
  | note marked => rintro rfl; simp at marked
  | keyword known intact written => simp [written]
  | continued intact written => simp [written, Quoted.between]

theorem called_eq_false {c : Char} (first : line.head? = some c) (solid : c ≠ ' ')
    (differs : name.toList.head? ≠ some c) : called name line = false := by
  obtain ⟨rest, rfl⟩ := List.head?_eq_some_iff.1 first
  apply beq_eq_false_iff_ne.2
  intro same
  apply differs
  rw [← same, List.takeWhile_cons_of_pos (by simpa using solid), List.head?_cons]

theorem called_note (known : name ∈ Entry.keywords) (marked : line.head? = some '#') :
    called name line = false :=
  called_eq_false marked (by decide) (Entry.isKeyword name known).1

theorem called_between (known : name ∈ Entry.keywords) (text : List Char) :
    called name (Quoted.between text) = false :=
  called_eq_false rfl (by decide) (Entry.isKeyword name known).2.1

theorem called_keyword (known : other ∈ Entry.keywords) (rest : List Char) :
    called name (other.toList ++ ' ' :: rest) = (other == name) := by
  have solid : ∀ c ∈ other.toList, (c != ' ') = true := by
    intro c member
    have outside := (Entry.isKeyword other known).2.2.1
    simp only [bne_iff_ne, ne_eq]
    rintro rfl
    exact outside member
  rw [called, List.takeWhile_append_of_pos solid]
  simp [String.toList_inj]

theorem templateLine_of_keywordLines (known : name ∈ Entry.keywords) (text : List Char) :
    ∀ line ∈ keywordLines name.toList text, TemplateLine line := by
  obtain ⟨first, parts, lines, -⟩ := keywordLines_eq name.toList text
  rw [lines]
  refine List.forall_mem_cons.2 ⟨.keyword known (Quoted.intact_encode first) rfl, ?_⟩
  exact List.forall_mem_map.2 fun part _ => .continued (Quoted.intact_encode part) rfl

theorem countP_called_keywordLines (known : name ∈ Entry.keywords)
    (listed : other ∈ Entry.keywords) (text : List Char) :
    (keywordLines other.toList text).countP (called name) = if other == name then 1 else 0 := by
  obtain ⟨first, parts, lines, -⟩ := keywordLines_eq other.toList text
  have others : (parts.map fun part => Quoted.between (Quoted.encode part)).countP (called name) =
      0 := by
    refine List.countP_eq_zero.2 (List.forall_mem_map.2 fun part _ => ?_)
    simp [called_between known]
  rw [lines, List.countP_cons, others, called_keyword listed, Nat.zero_add]

theorem countP_called_fields (known : name ∈ Entry.keywords) {fields : List (String × String)}
    (listed : ∀ field ∈ fields, field.1 ∈ Entry.keywords) :
    (fields.flatMap fun (name, text) => keywordLines name.toList text.toList).countP (called name) =
      fields.countP fun field => field.1 == name := by
  induction fields with
  | nil => rfl
  | cons field fields ih =>
    obtain ⟨first, others⟩ := List.forall_mem_cons.1 listed
    rw [List.flatMap_cons, List.countP_append, countP_called_keywordLines known first, ih others,
      List.countP_cons, Nat.add_comm]

end Lines

namespace Entry

def shownLines (e : Entry) : List (List Char) := e.lines.flatMap (·.splitOn '\n')

def strays (e : Entry) : List (List Char) := e.noteLines.flatMap fun line => (line.splitOn '\n').tail

variable {e : Entry}

theorem splitOn_render (e : Entry) : e.render.toList.splitOn '\n' = e.shownLines ++ [[], []] := by
  rw [render, String.toList_ofList, written, unlines, splitOn_flatMap_ended, ← lines,
    List.flatMap_append, ← shownLines, List.append_assoc]
  rfl

theorem marked_of_mem_noteLines {line : List Char} (member : line ∈ e.noteLines) :
    ∃ text, line = '#' :: text := by
  rw [noteLines, List.mem_append, List.mem_append] at member
  rcases member with (comment | reference) | flags
  · obtain ⟨text, -, rfl⟩ := List.mem_map.1 comment
    exact ⟨_, String.toList_append⟩
  · obtain ⟨text, -, rfl⟩ := List.mem_map.1 reference
    exact ⟨_, String.toList_append⟩
  · split at flags
    · exact absurd flags List.not_mem_nil
    · rw [List.mem_singleton.1 flags]
      exact ⟨_, String.toList_append⟩

/-- The shown lines are marked notes, stray lines and message lines. -/
theorem shownLines_perm (e : Entry) : ∃ firsts : List (List Char),
    (∀ line ∈ firsts, line.head? = some '#') ∧
    (firsts ++ e.strays ++ e.messageLines).Perm e.shownLines := by
  refine ⟨e.noteLines.map fun line => (line.splitOn '\n').headD [], ?_, ?_⟩
  · refine List.forall_mem_map.2 fun line member => ?_
    obtain ⟨text, rfl⟩ := marked_of_mem_noteLines member
    have other : '#' ≠ '\n' := by decide
    obtain ⟨first, others, split⟩ := splitOn_cons other text
    rw [split, List.headD_cons, List.head?_cons]
  · have parted : (fun line : List Char => (line.splitOn '\n').headD [] :: (line.splitOn '\n').tail) =
        (·.splitOn '\n') := by
      funext line
      obtain ⟨first, others, split⟩ := List.exists_cons_of_ne_nil (List.splitOn_ne_nil '\n' line)
      rw [split, List.headD_cons, List.tail_cons]
    have notes := List.map_append_flatMap_perm e.noteLines
      (fun line => (line.splitOn '\n').headD []) (fun line => (line.splitOn '\n').tail)
    rw [parted] at notes
    have message := flatMap_splitOn fun line member => (e.isLine_of_mem_messageLines member).2
    rw [shownLines, lines, List.flatMap_append, message]
    exact notes.append_right _

theorem OneLine.strays_eq (h : e.OneLine) : e.strays = [] := by
  refine List.flatMap_eq_nil_iff.2 fun line member => ?_
  have known : line ∈ e.lines := List.mem_append_left _ member
  rw [List.splitOn_eq_singleton (e.isLine_of_mem_lines h known).2, List.tail_cons]

theorem countP_ids_fields (e : Entry) : (e.fields.countP fun field => field.1 == "msgid") = 1 := by
  cases context : e.context <;> cases plural : e.pluralId <;> simp [fields, context, plural]

theorem countP_contexts_fields (e : Entry) :
    (e.fields.countP fun field => field.1 == "msgctxt") = e.context.toList.length := by
  cases context : e.context <;> cases plural : e.pluralId <;> simp [fields, context, plural]

/-- Each keyword starts as many lines as the entry has texts for it, besides stray lines. -/
theorem countP_called_shownLines {name : String} (known : name ∈ keywords) (e : Entry) :
    e.shownLines.countP (called name) =
      e.strays.countP (called name) + e.fields.countP fun field => field.1 == name := by
  obtain ⟨firsts, marked, shown⟩ := e.shownLines_perm
  have notes : firsts.countP (called name) = 0 := by
    refine List.countP_eq_zero.2 fun line member => ?_
    simp [called_note known (marked line member)]
  rw [← shown.countP_eq, List.countP_append, List.countP_append, notes, messageLines_eq,
    countP_called_fields known e.name_mem_keywords, Nat.zero_add]

theorem forall_shownLines_iff (e : Entry) :
    (∀ line ∈ e.shownLines, TemplateLine line) ↔ ∀ line ∈ e.strays, TemplateLine line := by
  obtain ⟨firsts, marked, shown⟩ := e.shownLines_perm
  have notes : ∀ line ∈ firsts, TemplateLine line := fun line member => .note (marked line member)
  have message : ∀ line ∈ e.messageLines, TemplateLine line := by
    intro line member
    rw [messageLines_eq] at member
    obtain ⟨field, inside, here⟩ := List.mem_flatMap.1 member
    exact templateLine_of_keywordLines (e.name_mem_keywords field inside) _ line here
  constructor
  · intro all line stray
    exact all line (shown.mem_iff.1 (List.mem_append_left _ (List.mem_append_right _ stray)))
  · intro strays line member
    rw [← shown.mem_iff, List.mem_append, List.mem_append] at member
    rcases member with (first | stray) | own
    · exact notes line first
    · exact strays line stray
    · exact message line own

/-- The lines are the entry's own exactly if its stray lines could stand in a template, give no id,
and no context beside another one. -/
theorem unforged_iff (e : Entry) :
    Unforged e.shownLines ↔
      (∀ line ∈ e.strays, TemplateLine line) ∧ e.strays.countP (called "msgid") = 0 ∧
        e.strays.countP (called "msgctxt") + e.context.toList.length ≤ 1 := by
  have ids := e.countP_called_shownLines (by decide : "msgid" ∈ keywords)
  have contexts := e.countP_called_shownLines (by decide : "msgctxt" ∈ keywords)
  rw [countP_ids_fields] at ids
  rw [countP_contexts_fields] at contexts
  constructor
  · intro h
    have one := h.ids
    have most := h.contexts
    exact ⟨e.forall_shownLines_iff.1 h.kinds, by omega, by omega⟩
  · rintro ⟨strays, none, few⟩
    have kinds := e.forall_shownLines_iff.2 strays
    exact ⟨kinds, fun blank => (kinds [] blank).ne_nil rfl, by omega, by omega⟩

end Entry

/-- For every edited entry: its lines, exactly when they are its own, and that they are if no note
has a line feed. -/
theorem lines_of_edited (context : Option String) (id : String) (edits : List Edit) :
    let e := (Entry.new context id).applyAll edits
    e.render.toList.splitOn '\n' = e.shownLines ++ [[], []] ∧
    (Unforged e.shownLines ↔
      (∀ line ∈ e.strays, TemplateLine line) ∧ e.strays.countP (called "msgid") = 0 ∧
        e.strays.countP (called "msgctxt") + context.toList.length ≤ 1) ∧
    ((∀ edit ∈ edits, edit.OneLine) → Unforged e.shownLines) := by
  intro e
  have kept : e.context = context := ((Entry.new context id).applyAll_frame edits).1
  have clean := e.unforged_iff
  rw [kept] at clean
  refine ⟨e.splitOn_render, clean, fun one => clean.2 ?_⟩
  have blank : (Entry.new context id).OneLine :=
    ⟨List.forall_mem_nil _, List.forall_mem_nil _, List.forall_mem_nil _⟩
  rw [(blank.applyAll one).strays_eq]
  refine ⟨List.forall_mem_nil _, rfl, ?_⟩
  cases context <;> simp

/-- Line feeds and keywords in context, id and plural id are harmless. -/
theorem lines_of_edited_menu :
    let context := some "menu\nmsgid \"Quit\""
    let edits := [.comment "File menu", .flag "c-format", .reference "menu.c:7",
      .plural "msgctxt \"menu\"\n\n# all", .comment "msgid \"Quit\""]
    let e := (Entry.new context "\nmsgid \"Quit\"\n").applyAll edits
    (∀ edit ∈ edits, edit.OneLine) ∧ Unforged e.shownLines := by
  intro context edits e
  have one : ∀ edit ∈ edits, edit.OneLine := by decide
  exact ⟨one, (lines_of_edited context "\nmsgid \"Quit\"\n" edits).2.2 one⟩

/-- A comment on two lines gives the entry a second id. -/
theorem comment_gives_second_id :
    let e := (Entry.new none "Open").applyAll [.comment "File menu\nmsgid \"Quit\""]
    e.render = "#. File menu\nmsgid \"Quit\"\nmsgid \"Open\"\nmsgstr \"\"\n\n" ∧
      e.render.toList.splitOn '\n' = e.shownLines ++ [[], []] ∧ ¬Unforged e.shownLines := by
  intro e
  refine ⟨by decide +kernel, by decide +kernel, fun unforged => ?_⟩
  have two : e.shownLines.countP (called "msgid") = 2 := by decide +kernel
  have one := unforged.ids
  omega

end MessageCatalog.Template
