import Mathlib.Data.List.DropRight
import MessageCatalog.Proofs.Text.Runs
import MessageCatalog.Text.Blank

/-! Trimming is idempotent and takes blanks from both ends only. -/
namespace MessageCatalog.Text

theorem stripBoth_eq (p : Char → Bool) (text : List Char) :
    stripBoth p text = (text.dropWhile p).rdropWhile p :=
  rfl

theorem isInfix_stripBoth (p : Char → Bool) (text : List Char) : stripBoth p text <:+: text :=
  (List.rdropWhile_prefix p _).isInfix.trans (List.dropWhile_suffix p).isInfix

theorem mem_of_mem_trim {text : List Char} {c : Char} (member : c ∈ trim text) : c ∈ text :=
  (isInfix_stripBoth isBlank text).subset member

theorem mem_dropWhile_iff {p : Char → Bool} {text : List Char} {c : Char} (kept : p c = false) :
    c ∈ text.dropWhile p ↔ c ∈ text := by
  induction text with
  | nil => rfl
  | cons d rest ih =>
    cases first : p d with
    | true =>
      have other : c ≠ d := by
        rintro rfl
        exact Bool.false_ne_true (kept.symm.trans first)
      simp [first, ih, other]
    | false => simp [first]

theorem mem_trim_iff {text : List Char} {c : Char} (kept : isBlank c = false) :
    c ∈ trim text ↔ c ∈ text := by
  rw [trim, stripBoth, List.mem_reverse, mem_dropWhile_iff kept, List.mem_reverse,
    mem_dropWhile_iff kept]

theorem mem_trimmed_iff {text : String} {c : Char} (kept : isBlank c = false) :
    c ∈ (trimmed text).toList ↔ c ∈ text.toList := by
  rw [trimmed, String.toList_ofList, mem_trim_iff kept]

theorem trim_eq_nil_iff {text : List Char} : trim text = [] ↔ ∀ c ∈ text, isBlank c = true := by
  constructor
  · intro nothing c member
    by_contra kept
    rw [← mem_trim_iff (Bool.eq_false_iff.2 kept), nothing] at member
    cases member
  · intro blank
    rw [trim, stripBoth, List.dropWhile_eq_nil_iff.2 blank]
    rfl

theorem trim_cons_of_isBlank {c : Char} (blank : isBlank c = true) (text : List Char) :
    trim (c :: text) = trim text := by
  rw [trim, stripBoth, List.dropWhile_cons_of_pos blank]
  rfl

theorem trim_eq_self {text : List Char} (first : ∀ c ∈ text.head?, isBlank c = false)
    (last : ∀ c ∈ text.getLast?, isBlank c = false) : trim text = text := by
  have front : text.dropWhile isBlank = text := by
    cases text with
    | nil => rfl
    | cons c rest => rw [List.dropWhile_cons_of_neg (by simp [first c rfl])]
  rw [trim, stripBoth_eq, front, List.rdropWhile_eq_self_iff]
  intro nonempty
  simp [last _ (List.getLast?_eq_some_getLast nonempty)]

theorem trim_eq_self_of_solid {text : List Char} (solid : ∀ c ∈ text, isBlank c = false) :
    trim text = text :=
  trim_eq_self (fun c first => solid c (List.mem_of_head? first))
    fun c last => solid c (List.mem_of_getLast? last)

/-- `core` is the text without surrounding blanks. -/
structure Trims (text core : String) : Prop where
  around : ∃ before after, text.toList = before ++ core.toList ++ after ∧
    (∀ c ∈ before, isBlank c = true) ∧ ∀ c ∈ after, isBlank c = true
  first : ∀ c ∈ core.toList.head?, isBlank c = false
  last : ∀ c ∈ core.toList.getLast?, isBlank c = false

theorem trims_trimmed (text : String) : Trims text (trimmed text) := by
  let left := text.toList.dropWhile isBlank
  have core : (trimmed text).toList = left.rdropWhile isBlank := by
    rw [trimmed, String.toList_ofList, trim, stripBoth_eq]
  have cut : left = left.rdropWhile isBlank ++ left.rtakeWhile isBlank :=
    (List.rdropWhile_append_rtakeWhile ..).symm
  refine ⟨⟨text.toList.takeWhile isBlank, left.rtakeWhile isBlank, ?_, ?_, ?_⟩, ?_, ?_⟩
  · rw [core, List.append_assoc, ← cut, List.takeWhile_append_dropWhile]
  · exact fun c => List.mem_takeWhile_imp
  · exact fun c => List.mem_rtakeWhile_imp
  · rw [core]
    intro c head
    have starts : c ∈ left.head? := by
      rw [cut, List.head?_append, Option.mem_def.1 head]
      rfl
    exact eq_false_of_mem_head?_dropWhile c starts
  · rw [core]
    intro c last
    obtain ⟨nonempty, rfl⟩ := List.mem_getLast?_eq_getLast last
    exact Bool.eq_false_iff.2 (List.rdropWhile_last_not isBlank left nonempty)

theorem stripBoth_stripBoth (p : Char → Bool) (text : List Char) :
    stripBoth p (stripBoth p text) = stripBoth p text := by
  have starts : (text.dropWhile p).rdropWhile p <+: text.dropWhile p := List.rdropWhile_prefix p _
  -- What is left starts as the text without its first blanks does, so none of them is first now.
  have kept : ((text.dropWhile p).rdropWhile p).dropWhile p = (text.dropWhile p).rdropWhile p := by
    refine List.dropWhile_eq_self_iff.2 fun nonempty => ?_
    rw [starts.getElem nonempty]
    exact List.dropWhile_eq_self_iff.1 (List.dropWhile_idempotent p text) _
  rw [stripBoth_eq p (stripBoth p text), stripBoth_eq p text, kept, List.rdropWhile_idempotent]

theorem trimmed_trimmed (text : String) : trimmed (trimmed text) = trimmed text := by
  rw [trimmed, trimmed, String.toList_ofList, trim, trim, stripBoth_stripBoth]

end MessageCatalog.Text
