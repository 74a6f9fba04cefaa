import Mathlib.Data.Bool.AllAny
import MessageCatalog.Plural.Expr
import MessageCatalog.Plural.Lexer
import MessageCatalog.Text.Blank

/-! Characters of rendered expressions: digits and a few signs, none of which ends a line or an
expression, and none of which is blank at the end. -/
namespace MessageCatalog.Plural

/-- No control character and no semicolon. -/
def Carried (c : Char) : Prop := 32 ≤ c.toNat ∧ c ≠ ';'

instance : DecidablePred Carried := fun c => inferInstanceAs (Decidable (32 ≤ c.toNat ∧ c ≠ ';'))

theorem Carried.endsExpression {c : Char} (h : Carried c) : endsExpression c = false := by
  refine Bool.eq_false_iff.2 fun ends => ?_
  rcases Bool.or_eq_true_iff.1 ends with semicolon | feed
  · exact h.2 (beq_iff_eq.1 semicolon)
  · have large := h.1
    rw [beq_iff_eq.1 feed] at large
    exact absurd large (by decide)

theorem toNat_of_isDigit {c : Char} (digit : c.isDigit = true) : 48 ≤ c.toNat ∧ c.toNat ≤ 57 := by
  simpa [Char.isDigit, UInt32.le_iff_toNat_le] using digit

theorem carried_of_isDigit {c : Char} (digit : c.isDigit = true) : Carried c := by
  have bounds := toNat_of_isDigit digit
  refine ⟨by omega, ?_⟩
  rintro rfl
  cases digit

theorem isDigit_toDigits {n : Nat} {c : Char} (member : c ∈ Nat.toDigits 10 n) :
    c.isDigit = true :=
  Nat.isDigit_of_mem_toDigits (by omega) (by omega) member

theorem toLower_of_isDigit {c : Char} (digit : c.isDigit = true) : c.toLower = c := by
  have small : c.val ≤ '9'.val := by
    simp only [Char.isDigit, Bool.and_eq_true, decide_eq_true_eq] at digit
    exact digit.2
  refine dif_neg ?_
  rintro ⟨large, _⟩
  exact absurd (UInt32.le_trans large small) (by decide)

theorem isGap_of_isDigit {c : Char} (digit : c.isDigit = true) : isGap c = false := by
  refine Bool.eq_false_iff.2 fun gap => ?_
  simp only [isGap, Bool.or_eq_true, beq_iff_eq] at gap
  rcases gap with (rfl | rfl) | rfl <;> cases digit

theorem isBlank_of_isDigit {c : Char} (digit : c.isDigit = true) : Text.isBlank c = false := by
  have bounds := toNat_of_isDigit digit
  exact Text.isBlank_of_visible (by omega) (by omega)

namespace Expr

def signs : List Char := "n()!?: +-*/%=<>&|".toList

theorem written_number (v : Int64) :
    ∃ sign : List Char, sign ⊆ signs ∧
      (number v).written = sign ++ Nat.toDigits 10 v.toInt.natAbs := by
  have shown : (number v).written = v.toInt.repr.toList := rfl
  rw [shown, Int.repr_eq_if]
  split
  case isTrue nonneg =>
    have same : v.toInt.toNat = v.toInt.natAbs := by omega
    exact ⟨[], List.nil_subset _, by rw [Nat.toList_repr, same, List.nil_append]⟩
  case isFalse negative =>
    have same : (-v.toInt).toNat = v.toInt.natAbs := by omega
    refine ⟨['-'], by decide, ?_⟩
    rw [String.toList_append, Nat.toList_repr, same]
    rfl

theorem forall_written {p : Char → Prop} (digits : ∀ c, c.isDigit = true → p c)
    (others : ∀ c ∈ signs, p c) (e : Expr) : ∀ c ∈ e.written, p c := by
  have literal {text : List Char} (known : text ⊆ signs) : ∀ c ∈ text, p c :=
    fun c member => others c (known member)
  have opening : ∀ c ∈ ['('], p c := literal (by decide)
  have closing : ∀ c ∈ [')'], p c := literal (by decide)
  induction e with
  | number v =>
    obtain ⟨sign, known, written⟩ := written_number v
    rw [written, List.forall_mem_append]
    exact ⟨literal known, fun c member => digits c (isDigit_toDigits member)⟩
  | count => exact literal (by decide)
  | not x ih =>
    have bang : ∀ c ∈ ['!', '('], p c := literal (by decide)
    simp only [written, List.forall_mem_append]
    exact ⟨⟨bang, ih⟩, closing⟩
  | binary op l r left right =>
    have symbol : ∀ c ∈ op.symbol.toList, p c := literal (by cases op <;> decide)
    have gap : ∀ c ∈ [' '], p c := literal (by decide)
    simp only [written, List.forall_mem_append]
    exact ⟨⟨⟨⟨⟨⟨opening, left⟩, gap⟩, symbol⟩, gap⟩, right⟩, closing⟩
  | choice c t e condition whenTrue whenFalse =>
    have question : ∀ c ∈ [' ', '?', ' '], p c := literal (by decide)
    have colon : ∀ c ∈ [' ', ':', ' '], p c := literal (by decide)
    simp only [written, List.forall_mem_append]
    exact ⟨⟨⟨⟨⟨⟨opening, condition⟩, question⟩, whenTrue⟩, colon⟩, whenFalse⟩, closing⟩

theorem carried_written (e : Expr) : ∀ c ∈ e.written, Carried c :=
  forall_written (fun _ => carried_of_isDigit) (List.all_iff_forall_prop.1 (by decide)) e

/-- An expression ends in a digit, the count or a parenthesis. -/
theorem written_eq_concat (e : Expr) :
    ∃ front last, e.written = front ++ [last] ∧ Text.isBlank last = false := by
  cases e with
  | number v =>
    obtain ⟨sign, _, digits⟩ := written_number v
    have ne := Nat.toDigits_ne_nil (n := v.toInt.natAbs) (b := 10)
    refine ⟨sign ++ (Nat.toDigits 10 v.toInt.natAbs).dropLast, _, ?_,
      isBlank_of_isDigit (isDigit_toDigits (List.getLast_mem ne))⟩
    rw [digits, List.append_assoc, List.dropLast_concat_getLast ne]
  | count => exact ⟨[], 'n', rfl, by decide⟩
  | not x => exact ⟨_, ')', rfl, by decide⟩
  | binary op l r => exact ⟨_, ')', rfl, by decide⟩
  | choice c t e => exact ⟨_, ')', rfl, by decide⟩

end Expr

end MessageCatalog.Plural
