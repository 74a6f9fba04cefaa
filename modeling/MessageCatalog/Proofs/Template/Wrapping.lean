import MessageCatalog.Proofs.Template.Blocks
import MessageCatalog.Proofs.Text.Quoting

/-! Wrapped keywords and texts are parsed back. Texts are cut between encoded characters only, so
pieces decode independently. -/
namespace MessageCatalog.Template

open Text

/-- If both halves of the current line are encodings, so is each piece. -/
theorem parts_of_pieces (closed opened text : List Char) :
    ∃ parts : List (List Char),
      pieces (Quoted.encode closed) (Quoted.encode opened) text = parts.map Quoted.encode ∧
      parts.flatten = closed ++ opened ++ text := by
  induction text generalizing closed opened with
  | nil =>
    rw [pieces, ← Quoted.encode_append, List.append_nil]
    by_cases empty : closed ++ opened = []
    · exact ⟨[], by rw [empty]; rfl, empty.symm⟩
    · have filled := mt Quoted.encode_eq_nil_iff.1 empty
      exact ⟨[closed ++ opened], by simp [filled], by simp⟩
  | cons c rest ih =>
    -- the next character goes to one of the halves, and the line is closed between them or not
    have step (full : Bool) (a b : List Char) (together : a ++ b = closed ++ opened ++ [c]) :
        ∃ parts : List (List Char),
          (if full then Quoted.encode a :: pieces [] (Quoted.encode b) rest
            else pieces (Quoted.encode a) (Quoted.encode b) rest) = parts.map Quoted.encode ∧
          parts.flatten = closed ++ opened ++ c :: rest := by
      rw [List.append_cons, ← together]
      cases full with
      | false => exact ih a b
      | true =>
        obtain ⟨parts, same, flat⟩ := ih [] b
        refine ⟨a :: parts, congrArg (Quoted.encode a :: ·) same, ?_⟩
        rw [List.flatten_cons, flat, List.nil_append, List.append_assoc]
    rw [pieces, ← Quoted.encode_append, ← Quoted.encode_singleton, ← Quoted.encode_append,
      ← Quoted.encode_append]
    by_cases feed : c = '\n'
    · obtain ⟨parts, same, flat⟩ := step true (closed ++ opened ++ [c]) [] (List.append_nil _)
      exact ⟨parts, (if_pos feed).trans same, flat⟩
    · rw [if_neg feed]
      cases breaks : (c == ' ' || c == '\t') with
      | true => exact step _ (closed ++ opened ++ [c]) [] (List.append_nil _)
      | false => exact step _ closed (opened ++ [c]) (List.append_assoc ..).symm

/-- Pieces are encodings of parts of the text, so no pair is split between lines. -/
theorem parts_of_text (text : List Char) :
    ∃ parts : List (List Char),
      pieces [] [] text = parts.map Quoted.encode ∧ parts.flatten = text :=
  parts_of_pieces [] [] text

theorem keywordLines_eq (name text : List Char) : ∃ (first : List Char) (parts : List (List Char)),
    keywordLines name text = (name ++ ' ' :: Quoted.between (Quoted.encode first)) ::
      parts.map (fun part => Quoted.between (Quoted.encode part)) ∧
    first ++ parts.flatten = text := by
  rw [keywordLines]
  split
  · exact ⟨text, [], rfl, List.append_nil text⟩
  · obtain ⟨parts, pieced, flat⟩ := parts_of_text text
    refine ⟨[], parts, ?_, flat⟩
    rw [pieced, List.map_map]
    rfl

theorem gathered_keywordLines {block : Block} {rest : List (List Char)} {name : List Char}
    (h : IsKeyword name) (after : gathered rest = some ([], block)) (text : List Char) :
    gathered (keywordLines name text ++ rest) = some ([], { block with
      fields := (String.ofList name, String.ofList text) :: block.fields }) := by
  obtain ⟨first, parts, lines, whole⟩ := keywordLines_eq name text
  rw [lines, ← whole]
  exact gathered_keyword h after first parts

theorem isLine_between (text : List Char) : IsLine (Quoted.between (Quoted.encode text)) := by
  refine ⟨List.cons_ne_nil _ _, ?_⟩
  simp [Quoted.between, Quoted.feed_notMem_encode]

theorem isLine_keyword {name : List Char} (h : IsKeyword name) (text : List Char) :
    IsLine (name ++ ' ' :: Quoted.between (Quoted.encode text)) := by
  refine ⟨by simp, ?_⟩
  simp [h.2.2.2, (isLine_between text).2]

theorem isLine_keywordLines {name line : List Char} (h : IsKeyword name) (text : List Char)
    (member : line ∈ keywordLines name text) : IsLine line := by
  obtain ⟨first, parts, lines, -⟩ := keywordLines_eq name text
  rw [lines] at member
  rcases List.mem_cons.1 member with rfl | later
  · exact isLine_keyword h first
  · obtain ⟨part, -, rfl⟩ := List.mem_map.1 later
    exact isLine_between part

end MessageCatalog.Template
