import Mathlib.Data.List.TakeWhile
import MessageCatalog.Proofs.Text.Runs
import MessageCatalog.Text.Placeholder

/-! Filling templates of literal texts and placeholders, whose borders survive adjacent braces. An
unresolved placeholder is copied, but its closing brace is scanned again and pairs with one that
follows. -/
namespace MessageCatalog.Text

/-- A decimal index below `count`, leading zeros allowed. -/
structure Resolves (count : Nat) (inner : List Char) : Prop where
  filled : inner ≠ []
  digits : ∀ c ∈ inner, c.isDigit = true
  within : Nat.ofDigitChars 10 inner 0 < count

theorem resolves_iff {count : Nat} {inner : List Char} :
    Resolves count inner ↔ inner ≠ [] ∧ inner.all Char.isDigit = true ∧
      Nat.ofDigitChars 10 inner 0 < count := by
  rw [List.all_eq_true]
  exact ⟨fun h => ⟨h.filled, h.digits, h.within⟩, fun h => ⟨h.1, h.2.1, h.2.2⟩⟩

instance (count : Nat) (inner : List Char) : Decidable (Resolves count inner) :=
  decidable_of_iff _ resolves_iff.symm

def braced (inner : List Char) : List Char := '\x7b' :: (inner ++ ['\x7d'])

def doubled (c : Char) : List Char := if c = '\x7b' ∨ c = '\x7d' then [c, c] else [c]

/-- Literal text or a placeholder. -/
inductive Segment (count : Nat) where
  | literal (text : String)
  | placeholder (index : List Char) (resolves : Resolves count index)

namespace Segment

def written {count : Nat} : Segment count → List Char
  | literal text => text.toList.flatMap doubled
  | placeholder index _ => braced index

def shown (arguments : List String) : Segment arguments.length → List Char
  | literal text => text.toList
  | placeholder index resolves =>
    (arguments.get ⟨Nat.ofDigitChars 10 index 0, resolves.within⟩).toList

end Segment

section Indices

variable {arguments : List (List Char)} {inner rest : List Char}

theorem indexAt_closed (unclosed : '\x7d' ∉ inner) :
    indexAt (inner ++ '\x7d' :: rest) =
      if inner ≠ [] ∧ inner.all Char.isDigit = true then some (inner, rest) else none := by
  unfold indexAt
  by_cases digits : ∀ c ∈ inner, c.isDigit = true
  · have stops : ∀ c ∈ ('\x7d' :: rest).head?, c.isDigit = false := by simp
    rw [dropWhile_append_of_stops digits stops, takeWhile_append_of_stops digits stops]
    cases inner <;> simp_all
  · -- the digits end within `inner`, at a character that is no closing brace
    have left : inner.dropWhile Char.isDigit ≠ [] := mt List.dropWhile_eq_nil_iff.1 digits
    obtain ⟨c, others, split⟩ := List.exists_cons_of_ne_nil left
    have inside : c ∈ inner := (List.dropWhile_suffix Char.isDigit).subset (by simp [split])
    have other : c ≠ '\x7d' := by
      rintro rfl
      exact unclosed inside
    simp [List.dropWhile_append, split, digits, other]

theorem argumentAt_of_resolves (h : Resolves arguments.length inner) :
    argumentAt arguments (inner ++ '\x7d' :: rest) = some (arguments.get ⟨_, h.within⟩, rest) := by
  have unclosed : '\x7d' ∉ inner := fun member => by simpa using h.digits _ member
  have found : indexAt (inner ++ '\x7d' :: rest) = some (inner, rest) := by
    rw [indexAt_closed unclosed, if_pos ⟨h.filled, List.all_eq_true.2 h.digits⟩]
  simp [argumentAt, found, h.within]

theorem argumentAt_of_not_resolves (unclosed : '\x7d' ∉ inner)
    (h : ¬Resolves arguments.length inner) :
    argumentAt arguments (inner ++ '\x7d' :: rest) = none := by
  unfold argumentAt
  rw [indexAt_closed unclosed]
  split
  · next digits rest found =>
    obtain ⟨number, same⟩ := Option.ite_none_right_eq_some.1 found
    cases same
    simpa using fun within => h ⟨number.1, List.all_eq_true.1 number.2, within⟩
  · rfl

end Indices

section Braces

variable {arguments : List (List Char)} {inner rest after argument : List Char} {c : Char}

theorem fill_opening_pair :
    fill arguments ('\x7b' :: '\x7b' :: rest) = '\x7b' :: fill arguments rest := by
  simp [fill]

theorem fill_closing_pair :
    fill arguments ('\x7d' :: '\x7d' :: rest) = '\x7d' :: fill arguments rest := by
  simp [fill]

theorem fill_plain (opening : c ≠ '\x7b') (closing : c ≠ '\x7d') :
    fill arguments (c :: rest) = c :: fill arguments rest := by
  rw [fill.eq_def]
  split <;> simp_all

theorem fill_closing (alone : rest.head? ≠ some '\x7d') :
    fill arguments ('\x7d' :: rest) = '\x7d' :: fill arguments rest := by
  cases rest with
  | nil => simp [fill]
  | cons d rest => simp_all [fill]

theorem fill_opening (alone : rest.head? ≠ some '\x7b') :
    fill arguments ('\x7b' :: rest) =
      match argumentAt arguments rest with
      | some (argument, after) => argument ++ fill arguments after
      | none => '\x7b' :: fill arguments rest := by
  have single : ∀ tail, rest ≠ '\x7b' :: tail := by
    rintro tail rfl
    exact alone rfl
  rw [fill]
  · split <;> simp_all
  · exact single

theorem fill_append_plain (plain : ∀ c ∈ inner, c ≠ '\x7b' ∧ c ≠ '\x7d') :
    fill arguments (inner ++ rest) = inner ++ fill arguments rest := by
  induction inner with
  | nil => rfl
  | cons c inner ih =>
    obtain ⟨here, others⟩ := List.forall_mem_cons.1 plain
    simp [fill_plain here.1 here.2, ih others]

theorem fill_doubled (c : Char) : fill arguments (doubled c ++ rest) = c :: fill arguments rest := by
  unfold doubled
  split
  · next brace =>
    rcases brace with rfl | rfl
    · exact fill_opening_pair
    · exact fill_closing_pair
  · next other =>
    rw [not_or] at other
    exact fill_plain other.1 other.2

theorem fill_flatMap_doubled (text : List Char) :
    fill arguments (text.flatMap doubled ++ rest) = text ++ fill arguments rest := by
  induction text with
  | nil => rfl
  | cons c text ih => simp [fill_doubled, ih]

/-- A placeholder is filled wherever it stands. -/
theorem fill_braced (h : Resolves arguments.length inner) :
    fill arguments (braced inner ++ rest) =
      arguments.get ⟨_, h.within⟩ ++ fill arguments rest := by
  have alone : (inner ++ '\x7d' :: rest).head? ≠ some '\x7b' := by
    cases inner with
    | nil => exact absurd rfl h.filled
    | cons c inner =>
      simp only [List.cons_append, List.head?_cons, ne_eq, Option.some.injEq]
      rintro rfl
      simpa using h.digits '\x7b' List.mem_cons_self
  simp [braced, fill_opening alone, argumentAt_of_resolves h]

/-- Only the opening brace and the inner text are passed. -/
theorem fill_braced_of_not_resolves (plain : ∀ c ∈ inner, c ≠ '\x7b' ∧ c ≠ '\x7d')
    (h : ¬Resolves arguments.length inner) (rest : List Char) :
    fill arguments (braced inner ++ rest) =
      '\x7b' :: (inner ++ fill arguments ('\x7d' :: rest)) := by
  have alone : (inner ++ '\x7d' :: rest).head? ≠ some '\x7b' := by
    cases inner with
    | nil => simp
    | cons c inner => simpa using (plain c List.mem_cons_self).1
  have unclosed : '\x7d' ∉ inner := fun member => (plain _ member).2 rfl
  simp [braced, fill_opening alone, argumentAt_of_not_resolves unclosed h, fill_append_plain plain]

end Braces

section Segments

variable {arguments : List String} {rest : List Char}

theorem fill_written (segment : Segment arguments.length) :
    fill (arguments.map String.toList) (segment.written ++ rest) =
      segment.shown arguments ++ fill (arguments.map String.toList) rest := by
  cases segment with
  | literal text => exact fill_flatMap_doubled text.toList
  | placeholder index resolves =>
    have listed : Resolves (arguments.map String.toList).length index := by
      simpa using resolves
    simpa [Segment.shown, Segment.written] using fill_braced listed

theorem fill_flatMap_written (segments : List (Segment arguments.length)) (rest : List Char) :
    fill (arguments.map String.toList) (segments.flatMap Segment.written ++ rest) =
      segments.flatMap (Segment.shown arguments) ++ fill (arguments.map String.toList) rest := by
  induction segments with
  | nil => rfl
  | cons segment segments ih => simp [fill_written, ih]

end Segments

/-- A template put together from any texts and placeholders is filled with these texts and
arguments; arguments are not rescanned. -/
theorem filled_written (arguments : List String) (segments : List (Segment arguments.length)) :
    filled (String.ofList (segments.flatMap Segment.written)) arguments =
      String.ofList (segments.flatMap (Segment.shown arguments)) := by
  have whole := fill_flatMap_written segments []
  simp only [List.append_nil, fill] at whole
  rw [filled, String.toList_ofList, whole]

example : filled "\x7b\x7b\x7b00\x7d\x7d\x7d" ["a\x7b0\x7d"] = "\x7ba\x7b0\x7d\x7d" := by cbv

section Closings

variable {arguments : List (List Char)} {inner rest : List Char}

def closings (text : List Char) : Nat := (text.takeWhile (· == '\x7d')).length

/-- Closing braces pair up from the left; an odd one stays. -/
theorem fill_closings (count : Nat) (stops : rest.head? ≠ some '\x7d') :
    fill arguments (List.replicate count '\x7d' ++ rest) =
      List.replicate ((count + 1) / 2) '\x7d' ++ fill arguments rest := by
  induction count using Nat.twoStepInduction with
  | zero => rfl
  | one => exact fill_closing stops
  | more count ih _ =>
    have half : (count + 2 + 1) / 2 = (count + 1) / 2 + 1 := by omega
    simp [List.replicate_succ, fill_closing_pair, ih, half]

theorem eq_replicate_closings (text : List Char) :
    ∃ rest, text = List.replicate (closings text) '\x7d' ++ rest ∧ rest.head? ≠ some '\x7d' := by
  refine ⟨text.dropWhile (· == '\x7d'), ?_, ?_⟩
  · have all : text.takeWhile (· == '\x7d') = List.replicate (closings text) '\x7d' :=
      List.eq_replicate_iff.2 ⟨rfl, fun c member => by simpa using List.mem_takeWhile_imp member⟩
    rw [← all, List.takeWhile_append_dropWhile]
  · intro head
    simpa using eq_false_of_mem_head?_dropWhile _ head

theorem fill_closing_iff :
    fill arguments ('\x7d' :: rest) = '\x7d' :: fill arguments rest ↔ closings rest % 2 = 0 := by
  obtain ⟨after, split, stops⟩ := eq_replicate_closings rest
  generalize closings rest = count at split
  subst split
  have more : fill arguments ('\x7d' :: (List.replicate count '\x7d' ++ after)) =
      List.replicate ((count + 1 + 1) / 2) '\x7d' ++ fill arguments after :=
    fill_closings (count + 1) stops
  rw [more, fill_closings count stops, ← List.cons_append, ← List.replicate_succ]
  simp only [List.append_left_inj, List.replicate_inj, or_true, and_true]
  omega

end Closings

/-- An unresolved placeholder is copied unchanged exactly if an even number of closing braces
follows; a closing brace right after it is lost. -/
theorem filled_unresolved (arguments : List String) {inner : String}
    (plain : ∀ c ∈ inner.toList, c ≠ '\x7b' ∧ c ≠ '\x7d')
    (unresolved : ¬Resolves arguments.length inner.toList) (rest : String) :
    let whole := String.ofList (braced inner.toList)
    (filled (whole ++ rest) arguments = whole ++ filled rest arguments ↔
      closings rest.toList % 2 = 0) ∧
    filled (whole ++ "\x7d" ++ rest) arguments = whole ++ filled rest arguments := by
  intro whole
  have listed : ¬Resolves (arguments.map String.toList).length inner.toList := by
    simpa using unresolved
  have passed := fill_braced_of_not_resolves plain listed
  have copied : (whole ++ filled rest arguments).toList =
      '\x7b' :: (inner.toList ++ '\x7d' :: fill (arguments.map String.toList) rest.toList) := by
    simp [whole, filled, braced]
  constructor
  · rw [← String.toList_inj, copied]
    simp [whole, filled, passed, fill_closing_iff]
  · rw [← String.toList_inj, copied]
    simp [whole, filled, passed, fill_closing_pair]

/-- An even number of closing braces may follow, an odd one may not. -/
theorem filled_unresolved_name :
    let arguments := ["\x7b0\x7d"]
    let whole := String.ofList (braced "name".toList)
    (∀ c ∈ "name".toList, c ≠ '\x7b' ∧ c ≠ '\x7d') ∧ ¬Resolves 1 "name".toList ∧
      filled (whole ++ "\x7d\x7d \x7b0\x7d") arguments =
        whole ++ filled "\x7d\x7d \x7b0\x7d" arguments ∧
      filled (whole ++ "\x7d \x7b0\x7d") arguments ≠
        whole ++ filled "\x7d \x7b0\x7d" arguments := by
  intro arguments whole
  have plain : ∀ c ∈ "name".toList, c ≠ '\x7b' ∧ c ≠ '\x7d' := by simp
  have unresolved : ¬Resolves arguments.length "name".toList := by decide
  have even := (filled_unresolved arguments plain unresolved "\x7d\x7d \x7b0\x7d").1
  have odd := (filled_unresolved arguments plain unresolved "\x7d \x7b0\x7d").1
  exact ⟨plain, unresolved, even.2 (by decide), mt odd.1 (by decide)⟩

/-- The closing brace of an unresolved placeholder pairs with the next one. -/
theorem closing_brace_lost :
    ¬Resolves 0 "5".toList ∧ filled "\x7b5\x7d\x7d" [] = "\x7b5\x7d" ∧
      "\x7b5\x7d" ++ filled "\x7d" [] = "\x7b5\x7d\x7d" :=
  ⟨by decide, by cbv, by cbv⟩

end MessageCatalog.Text
