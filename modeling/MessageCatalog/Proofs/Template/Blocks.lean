import MessageCatalog.Template.Wrapped
import MessageCatalog.Text.Cut
import MessageCatalog.Proofs.Text.Splitting

/-! A reader of templates by blocks between blank lines, independent of how templates are wrapped.
Lines are notes or quoted texts, with continuation lines; broken escapes are rejected. -/
namespace MessageCatalog.Template

open Text

def quoted? (text : List Char) : Option (List Char) :=
  let inner := text.tail.dropLast
  if text = Quoted.between inner ∧ (Quoted.decode inner).isSome then some inner else none

inductive Line where
  | comment (text : String)
  | reference (text : String)
  | flags
  | keyword (name : String) (written : List Char)
  | continued (written : List Char)
  deriving DecidableEq, Repr

structure Block where
  comments : List String
  references : List String
  fields : List (String × String)
  deriving DecidableEq, Repr

def Line.ofText? (line : List Char) : Option Line :=
  match line with
  | '#' :: '.' :: ' ' :: text => some (.comment (String.ofList text))
  | '#' :: ':' :: ' ' :: text => some (.reference (String.ofList text))
  | '#' :: ',' :: ' ' :: _ => some .flags
  | '#' :: _ => none
  | '"' :: _ => (quoted? line).map .continued
  | _ => (cut ' ' line).bind fun (name, rest) =>
    (quoted? rest).map (.keyword (String.ofList name))

/-- A keyword collects the quoted lines after it; notes may not interrupt them. -/
def Line.before : Line → List (List Char) × Block → Option (List (List Char) × Block)
  | .continued written, (waiting, block) => some (written :: waiting, block)
  | .keyword name written, (waiting, block) =>
    (Quoted.decode (written ++ waiting.flatten)).map fun text =>
      ([], { block with fields := (name, String.ofList text) :: block.fields })
  | .comment text, ([], block) => some ([], { block with comments := text :: block.comments })
  | .reference text, ([], block) => some ([], { block with references := text :: block.references })
  | .flags, ([], block) => some ([], block)
  | _, (_ :: _, _) => none

/-- Leading quoted texts without keyword, and the block. -/
def gathered : List (List Char) → Option (List (List Char) × Block)
  | [] => some ([], ⟨[], [], []⟩)
  | line :: rest => (Line.ofText? line).bind fun line => (gathered rest).bind line.before

def Block.ofLines? (lines : List (List Char)) : Option Block :=
  match gathered lines with
  | some ([], block) => some block
  | _ => none

def paragraphs (text : List Char) : List (List (List Char)) :=
  ((text.splitOn '\n').splitOn []).filter (· ≠ [])

def readBlocks (text : String) : Option (List Block) :=
  (paragraphs text.toList).mapM Block.ofLines?

section Paragraphs

def IsLine (line : List Char) : Prop := line ≠ [] ∧ '\n' ∉ line

instance (line : List Char) : Decidable (IsLine line) := inferInstanceAs (Decidable (_ ∧ _))

theorem paragraphs_written {blocks : List (List (List Char))} (filled : ∀ b ∈ blocks, b ≠ [])
    (lines : ∀ b ∈ blocks, ∀ line ∈ b, IsLine line) :
    paragraphs (blocks.flatMap fun b => unlines (b ++ [[]])) = blocks := by
  have joined : (blocks.flatMap fun b => unlines (b ++ [[]])) =
      (blocks.flatMap (· ++ [[]])).flatMap (· ++ ['\n']) := List.flatMap_assoc.symm
  have unbroken : ∀ line ∈ blocks.flatMap (· ++ [[]]), '\n' ∉ line := by
    intro line member
    obtain ⟨b, inside, here⟩ := List.mem_flatMap.1 member
    rcases List.mem_append.1 here with written | blank
    · exact (lines b inside line written).2
    · rw [List.mem_singleton.1 blank]
      exact List.not_mem_nil
  -- the text ends in a line feed, so that an empty line comes after the last blank one
  have parted : (blocks.flatMap (· ++ [[]])) ++ [[]] = (blocks ++ [[]]).flatMap (· ++ [[]]) := by
    rw [List.flatMap_append, List.flatMap_singleton, List.nil_append]
  have apart : ∀ b ∈ blocks ++ [[]], [] ∉ b := by
    intro b member blank
    rcases List.mem_append.1 member with inside | last
    · exact (lines b inside [] blank).1 rfl
    · rw [List.mem_singleton.1 last] at blank
      exact List.not_mem_nil blank
  rw [paragraphs, joined, splitOn_ended unbroken, parted, splitOn_ended apart]
  simpa using filled

end Paragraphs

section Lines

variable {waiting : List (List Char)} {block : Block} {rest : List (List Char)}

theorem quoted?_between (text : List Char) :
    quoted? (Quoted.between (Quoted.encode text)) = some (Quoted.encode text) := by
  have inner : (Quoted.between (Quoted.encode text)).tail.dropLast = Quoted.encode text :=
    List.dropLast_concat
  rw [quoted?, inner, Quoted.decode_encode]
  exact if_pos ⟨rfl, rfl⟩

/-- Ends at the first space and starts neither a note nor a quoted text. -/
def IsKeyword (name : List Char) : Prop :=
  name.head? ≠ some '#' ∧ name.head? ≠ some '"' ∧ ' ' ∉ name ∧ '\n' ∉ name

instance (name : List Char) : Decidable (IsKeyword name) := inferInstanceAs (Decidable (_ ∧ _))

theorem Line.ofText?_keyword {name : List Char} (h : IsKeyword name) (text : List Char) :
    Line.ofText? (name ++ ' ' :: Quoted.between (Quoted.encode text)) =
      some (.keyword (String.ofList name) (Quoted.encode text)) := by
  have parted : cut ' ' (name ++ ' ' :: Quoted.between (Quoted.encode text)) =
      some (name, Quoted.between (Quoted.encode text)) := cut_eq_some_iff.2 ⟨rfl, h.2.2.1⟩
  obtain ⟨note, quote, -⟩ := h
  unfold Line.ofText?
  cases name with
  | nil => rw [parted]; simp [quoted?_between]
  | cons c name =>
    split
    all_goals simp_all [quoted?_between]

theorem Line.ofText?_continued (text : List Char) :
    Line.ofText? (Quoted.between (Quoted.encode text)) = some (.continued (Quoted.encode text)) :=
  congrArg (Option.map Line.continued) (quoted?_between text)

theorem gathered_cons {text : List Char} {line : Line} (h : Line.ofText? text = some line)
    (after : gathered rest = some (waiting, block)) :
    gathered (text :: rest) = line.before (waiting, block) := by
  rw [gathered, h, after]
  rfl

theorem gathered_continued (after : gathered rest = some (waiting, block))
    (texts : List (List Char)) :
    gathered (texts.map (fun text => Quoted.between (Quoted.encode text)) ++ rest) =
      some (texts.map Quoted.encode ++ waiting, block) := by
  induction texts with
  | nil => exact after
  | cons text texts ih => exact gathered_cons (Line.ofText?_continued text) ih

theorem gathered_keyword {name : List Char} (h : IsKeyword name)
    (after : gathered rest = some ([], block)) (first : List Char) (texts : List (List Char)) :
    gathered ((name ++ ' ' :: Quoted.between (Quoted.encode first)) ::
        (texts.map (fun text => Quoted.between (Quoted.encode text)) ++ rest)) =
      some ([], { block with
        fields := (String.ofList name, String.ofList (first ++ texts.flatten)) ::
          block.fields }) := by
  have whole : Quoted.encode first ++ (texts.map Quoted.encode).flatten =
      Quoted.encode (first ++ texts.flatten) := by
    rw [Quoted.encode_append, Quoted.encode_flatten]
  rw [gathered_cons (Line.ofText?_keyword h first) (gathered_continued after texts),
    Line.before, List.append_nil, whole, Quoted.decode_encode]
  rfl

/-- Notes of one kind precede those of the following lines. -/
theorem gathered_notes {written : String → List Char} (line : String → Line)
    (noting : List String → Block → Block)
    (reads : ∀ text, Line.ofText? (written text) = some (line text))
    (nothing : noting [] block = block)
    (more : ∀ text texts, (line text).before ([], noting texts block) =
      some ([], noting (text :: texts) block))
    (after : gathered rest = some ([], block)) (texts : List String) :
    gathered (texts.map written ++ rest) = some ([], noting texts block) := by
  induction texts with
  | nil => rw [nothing]; exact after
  | cons text texts ih => exact (gathered_cons (reads text) ih).trans (more text texts)

theorem gathered_comments (after : gathered rest = some ([], block)) (comments : List String) :
    gathered (comments.map (fun text => ("#. " ++ text).toList) ++ rest) =
      some ([], { block with comments := comments ++ block.comments }) := by
  refine gathered_notes .comment (fun texts block => { block with
    comments := texts ++ block.comments }) (fun text => ?_) rfl (fun _ _ => rfl) after comments
  rw [String.toList_append]
  exact congrArg (some ∘ Line.comment) String.ofList_toList

theorem gathered_references (after : gathered rest = some ([], block)) (references : List String) :
    gathered (references.map (fun text => ("#: " ++ text).toList) ++ rest) =
      some ([], { block with references := references ++ block.references }) := by
  refine gathered_notes .reference (fun texts block => { block with
    references := texts ++ block.references }) (fun text => ?_) rfl (fun _ _ => rfl) after
    references
  rw [String.toList_append]
  exact congrArg (some ∘ Line.reference) String.ofList_toList

theorem gathered_flags (after : gathered rest = some ([], block)) (text : String) :
    gathered (("#, " ++ text).toList :: rest) = some ([], block) := by
  have line : Line.ofText? ("#, " ++ text).toList = some .flags := by
    rw [String.toList_append]
    rfl
  exact gathered_cons line after

end Lines
end MessageCatalog.Template
