import MessageCatalog.Plural.Expr
import MessageCatalog.Proofs.Outcome

/-! Word evaluation against exact arithmetic. Evaluation is exact if every evaluated part fits in a
word, division by zero included; polynomials are exact modulo 2^64 without that proviso. -/
namespace MessageCatalog.Plural

def IsWord (v : Int) : Prop := -0x8000000000000000 ≤ v ∧ v < 0x8000000000000000

instance (v : Int) : Decidable (IsWord v) := inferInstanceAs (Decidable (_ ∧ _))

def exactTruth (p : Prop) [Decidable p] : Int := if p then 1 else 0

def exactlyDivided (f : Int → Int → Int) (l r : Int) : Except Fault Int :=
  if r = 0 then .error .divisionByZero else .ok (f l r)

namespace Op

/-- Quotients and remainders truncate toward zero. -/
def exactResult : Op → Int → Int → Except Fault Int
  | add, l, r => .ok (l + r)
  | sub, l, r => .ok (l - r)
  | mul, l, r => .ok (l * r)
  | div, l, r => exactlyDivided Int.tdiv l r
  | mod, l, r => exactlyDivided Int.tmod l r
  | eq, l, r => .ok (exactTruth (l = r))
  | ne, l, r => .ok (exactTruth (l ≠ r))
  | lt, l, r => .ok (exactTruth (l < r))
  | le, l, r => .ok (exactTruth (l ≤ r))
  | gt, l, r => .ok (exactTruth (r < l))
  | ge, l, r => .ok (exactTruth (r ≤ l))
  | and, l, r => .ok (exactTruth (l ≠ 0 ∧ r ≠ 0))
  | or, l, r => .ok (exactTruth (l ≠ 0 ∨ r ≠ 0))

def divides : Op → Bool
  | div | mod => true
  | _ => false

/-- Operators compatible with reduction modulo 2^64. -/
def isRing : Op → Bool
  | add | sub | mul => true
  | _ => false

end Op

namespace Expr

def exactValue : Expr → Int → Except Fault Int
  | number v, _ => .ok v.toInt
  | count, n => .ok n
  | not x, n => do
    let v ← x.exactValue n
    .ok (exactTruth (v = 0))
  | binary op l r, n => do
    let a ← l.exactValue n
    let b ← r.exactValue n
    op.exactResult a b
  | choice c t e, n => do
    let v ← c.exactValue n
    if v ≠ 0 then t.exactValue n else e.exactValue n

/-- Parts evaluated together with the whole. -/
inductive Visits (n : Int) : Expr → Expr → Prop
  | self {e : Expr} : Visits n e e
  | operand {x part : Expr} : Visits n x part → Visits n (not x) part
  | left {op : Op} {l r part : Expr} : Visits n l part → Visits n (binary op l r) part
  | right {op : Op} {l r part : Expr} {a : Int} : l.exactValue n = .ok a → Visits n r part →
      Visits n (binary op l r) part
  | condition {c t e part : Expr} : Visits n c part → Visits n (choice c t e) part
  | whenTrue {c t e part : Expr} {v : Int} : c.exactValue n = .ok v → v ≠ 0 → Visits n t part →
      Visits n (choice c t e) part
  | whenFalse {c t e part : Expr} : c.exactValue n = .ok 0 → Visits n e part →
      Visits n (choice c t e) part

/-- Every evaluated part fits in a word. -/
def Fits (e : Expr) (n : Int) : Prop :=
  ∀ part v, Visits n e part → part.exactValue n = .ok v → IsWord v

/-- Some evaluated divisor is exactly zero. -/
def DividesByZero (e : Expr) (n : Int) : Prop :=
  ∃ op l r a, Visits n e (binary op l r) ∧ op.divides = true ∧
    l.exactValue n = .ok a ∧ r.exactValue n = .ok 0

inductive IsPolynomial : Expr → Prop
  | number {v : Int64} : IsPolynomial (number v)
  | count : IsPolynomial count
  | binary {op : Op} {l r : Expr} : op.isRing = true → IsPolynomial l → IsPolynomial r →
      IsPolynomial (binary op l r)

end Expr

section Words

variable {v : Int} {p : Prop} [Decidable p]

theorem isWord_toInt (w : Int64) : IsWord w.toInt := ⟨w.le_toInt, w.toInt_lt⟩

theorem toInt_ofInt_of_isWord (h : IsWord v) : (Int64.ofInt v).toInt = v :=
  Int64.toInt_ofInt_of_le h.1 h.2

theorem toInt_eq_zero_iff {w : Int64} : w.toInt = 0 ↔ w = 0 := by
  rw [← Int64.toInt_inj, Int64.toInt_zero]

theorem ofInt_eq_zero_iff (h : IsWord v) : Int64.ofInt v = 0 ↔ v = 0 := by
  rw [← toInt_eq_zero_iff, toInt_ofInt_of_isWord h]

theorem ok_truth {b : Bool} (same : b = decide p) :
    (.ok (truth b) : Except Fault Int64) = (Except.ok (exactTruth p)).map Int64.ofInt := by
  by_cases h : p <;> simp [same, truth, exactTruth, Except.map, h]

/-- Reduction commutes with the steps after a value. -/
theorem bind_map {x : Except Fault Int} {inWords : Int64 → Except Fault Int64}
    {exactly : Int → Except Fault Int}
    (same : ∀ v, x = .ok v → inWords (Int64.ofInt v) = (exactly v).map Int64.ofInt) :
    (x.map Int64.ofInt >>= inWords) = (x >>= exactly).map Int64.ofInt := by
  cases x with
  | error fault => rfl
  | ok v => exact same v rfl

end Words

namespace Op

variable {op : Op} {a b : Int}

theorem exactResult_eq_error_iff {fault : Fault} :
    op.exactResult a b = .error fault ↔ op.divides = true ∧ b = 0 := by
  cases op <;> simp [exactResult, divides, exactlyDivided]

theorem divided_eq {f : Int64 → Int64 → Int64} {g : Int → Int → Int}
    (same : ∀ l r : Int64, f l r = Int64.ofInt (g l.toInt r.toInt)) (l r : Int64) :
    divided f l r = (exactlyDivided g l.toInt r.toInt).map Int64.ofInt := by
  by_cases zero : r = 0
  · simp [divided, exactlyDivided, Except.map, zero]
  · simp [divided, exactlyDivided, Except.map, zero, toInt_eq_zero_iff, same]

/-- Results in words are exact results reduced to words, including the one quotient that does not
fit. -/
theorem apply_eq (op : Op) (l r : Int64) :
    op.apply l r = (op.exactResult l.toInt r.toInt).map Int64.ofInt := by
  have quotient (l r : Int64) : l / r = Int64.ofInt (l.toInt.tdiv r.toInt) := by
    rw [← Int64.toInt_inj, Int64.toInt_div, Int64.toInt_ofInt]
  have remainder (l r : Int64) : l % r = Int64.ofInt (l.toInt.tmod r.toInt) := by
    rw [← Int64.toInt_mod, Int64.ofInt_toInt]
  cases op with
  | add => simp [apply, exactResult, Except.map, Int64.ofInt_add]
  | sub => simp [apply, exactResult, Except.map, Int64.ofInt_sub]
  | mul => simp [apply, exactResult, Except.map, Int64.ofInt_mul]
  | div => exact divided_eq quotient l r
  | mod => exact divided_eq remainder l r
  | eq => exact ok_truth (by simp [Int64.toInt_inj, Bool.beq_eq_decide_eq])
  | ne => exact ok_truth (by simp [Int64.toInt_inj, bne, Bool.beq_eq_decide_eq])
  | lt => exact ok_truth (by simp [Int64.lt_iff_toInt_lt])
  | le => exact ok_truth (by simp [Int64.le_iff_toInt_le])
  | gt => exact ok_truth (by simp [Int64.lt_iff_toInt_lt])
  | ge => exact ok_truth (by simp [Int64.le_iff_toInt_le])
  | and => exact ok_truth (by simp [toInt_eq_zero_iff, bne, Bool.beq_eq_decide_eq])
  | or => exact ok_truth (by simp [toInt_eq_zero_iff, bne, Bool.beq_eq_decide_eq])

/-- Sums, differences and products may be reduced before or after. -/
theorem apply_ofInt (ring : op.isRing = true) (a b : Int) :
    op.apply (Int64.ofInt a) (Int64.ofInt b) = (op.exactResult a b).map Int64.ofInt := by
  cases op with
  | add => simp [apply, exactResult, Except.map, Int64.ofInt_add]
  | sub => simp [apply, exactResult, Except.map, Int64.ofInt_sub]
  | mul => simp [apply, exactResult, Except.map, Int64.ofInt_mul]
  | _ => cases ring

end Op

namespace Expr

variable {n : Int} {e whole part : Expr} {fault : Fault}

theorem Visits.trans (first : Visits n whole e) (second : Visits n e part) : Visits n whole part := by
  induction first with
  | self => exact second
  | operand _ ih => exact .operand (ih second)
  | left _ ih => exact .left (ih second)
  | right known _ ih => exact .right known (ih second)
  | condition _ ih => exact .condition (ih second)
  | whenTrue known taken _ ih => exact .whenTrue known taken (ih second)
  | whenFalse known _ ih => exact .whenFalse known (ih second)

/-- A fault in an evaluated part ends the evaluation. -/
theorem Visits.exactValue_eq_error (visited : Visits n e part) (h : part.exactValue n = .error fault) :
    e.exactValue n = .error fault := by
  induction visited with
  | self => exact h
  | operand _ ih => simp only [exactValue, bind_of_error (ih h)]
  | left _ ih => simp only [exactValue, bind_of_error (ih h)]
  | right known _ ih => simp only [exactValue, bind_of_ok known, bind_of_error (ih h)]
  | condition _ ih => simp only [exactValue, bind_of_error (ih h)]
  | whenTrue known taken _ ih => simpa only [exactValue, bind_of_ok known, if_pos taken] using ih h
  | whenFalse known _ ih =>
    simpa only [exactValue, bind_of_ok known, ne_eq, not_true_eq_false, if_false] using ih h

theorem DividesByZero.of_part (visited : Visits n e part) (h : part.DividesByZero n) :
    e.DividesByZero n := by
  obtain ⟨op, l, r, a, inside, divides, left, right⟩ := h
  exact ⟨op, l, r, a, visited.trans inside, divides, left, right⟩

theorem dividesByZero_of_exactValue (h : e.exactValue n = .error fault) : e.DividesByZero n := by
  induction e generalizing fault with
  | number v => cases h
  | count => cases h
  | not x ih =>
    cases operand : x.exactValue n with
    | error cause => exact (ih operand).of_part (.operand .self)
    | ok v => simp [exactValue, bind_of_ok operand] at h
  | binary op l r left right =>
    cases first : l.exactValue n with
    | error cause => exact (left first).of_part (.left .self)
    | ok a =>
      cases second : r.exactValue n with
      | error cause => exact (right second).of_part (.right first .self)
      | ok b =>
        simp only [exactValue, bind_of_ok first, bind_of_ok second] at h
        obtain ⟨divides, rfl⟩ := Op.exactResult_eq_error_iff.1 h
        exact ⟨op, l, r, a, .self, divides, first, second⟩
  | choice c t e condition whenTrue whenFalse =>
    cases known : c.exactValue n with
    | error cause => exact (condition known).of_part (.condition .self)
    | ok v =>
      simp only [exactValue, bind_of_ok known] at h
      by_cases zero : v = 0
      · subst zero
        exact (whenFalse h).of_part (.whenFalse known .self)
      · rw [if_pos zero] at h
        exact (whenTrue h).of_part (.whenTrue known zero .self)

/-- There is no exact value exactly where an evaluated part divides by zero. -/
theorem exactValue_eq_error_iff : e.exactValue n = .error .divisionByZero ↔ e.DividesByZero n := by
  refine ⟨dividesByZero_of_exactValue, fun ⟨op, l, r, a, visited, divides, left, right⟩ => ?_⟩
  apply visited.exactValue_eq_error
  simp only [exactValue, bind_of_ok left, bind_of_ok right]
  exact Op.exactResult_eq_error_iff.2 ⟨divides, rfl⟩

theorem Fits.of_part (fits : e.Fits n) (visited : Visits n e part) : part.Fits n :=
  fun inner v inside => fits inner v (visited.trans inside)

theorem Fits.isWord {v : Int} (fits : e.Fits n) (h : e.exactValue n = .ok v) : IsWord v :=
  fits e v .self h

/-- Words suffice where every evaluated part fits. -/
theorem evaluate_of_fits {n : Int64} (fits : e.Fits n.toInt) :
    e.evaluate n = (e.exactValue n.toInt).map Int64.ofInt := by
  induction e with
  | number v => simp [evaluate, exactValue, Except.map]
  | count => simp [evaluate, exactValue, Except.map]
  | not x ih =>
    have operand := fits.of_part (.operand .self)
    rw [evaluate, exactValue, ih operand]
    refine bind_map fun v value => ok_truth ?_
    simp [Bool.beq_eq_decide_eq, ofInt_eq_zero_iff (operand.isWord value)]
  | binary op l r left right =>
    have first := fits.of_part (.left .self)
    rw [evaluate, exactValue, left first]
    refine bind_map fun a value => ?_
    have second := fits.of_part (.right value .self)
    rw [right second]
    refine bind_map fun b divisor => ?_
    rw [Op.apply_eq, toInt_ofInt_of_isWord (first.isWord value),
      toInt_ofInt_of_isWord (second.isWord divisor)]
  | choice c t e condition whenTrue whenFalse =>
    have asked := fits.of_part (.condition .self)
    rw [evaluate, exactValue, condition asked]
    refine bind_map fun v value => ?_
    have same := ofInt_eq_zero_iff (asked.isWord value)
    by_cases zero : v = 0
    · subst zero
      have branch := whenFalse (fits.of_part (.whenFalse value .self))
      simp [branch]
    · have branch := whenTrue (fits.of_part (.whenTrue value zero .self))
      simp [bne, Bool.beq_eq_decide_eq, same, zero, branch]

theorem IsPolynomial.exists_exactValue (h : e.IsPolynomial) : ∃ v, e.exactValue n = .ok v := by
  induction h with
  | number => exact ⟨_, rfl⟩
  | count => exact ⟨_, rfl⟩
  | @binary op l r ring _ _ left right =>
    obtain ⟨a, first⟩ := left
    obtain ⟨b, second⟩ := right
    simp only [exactValue, bind_of_ok first, bind_of_ok second]
    cases op with
    | add | sub | mul => exact ⟨_, rfl⟩
    | _ => cases ring

/-- The parts of a polynomial need not fit. -/
theorem evaluate_of_isPolynomial {n : Int64} (h : e.IsPolynomial) :
    e.evaluate n = (e.exactValue n.toInt).map Int64.ofInt := by
  induction h with
  | number => simp [evaluate, exactValue, Except.map]
  | count => simp [evaluate, exactValue, Except.map]
  | binary ring _ _ left right =>
    rw [evaluate, exactValue, left]
    refine bind_map fun a _ => ?_
    rw [right]
    exact bind_map fun b _ => Op.apply_ofInt ring a b

/-- For every tree and count: if every evaluated part fits, the value is the exact one, and division
by zero fails exactly where it does over the integers; polynomials are exact modulo 2^64. -/
theorem evaluate_exactly (e : Expr) (n : Int64) :
    (e.Fits n.toInt →
      (∀ v, e.exactValue n.toInt = .ok v ↔ ∃ w, e.evaluate n = .ok w ∧ w.toInt = v) ∧
      (e.evaluate n = .error .divisionByZero ↔ e.DividesByZero n.toInt)) ∧
    (e.IsPolynomial →
      ∃ v w, e.exactValue n.toInt = .ok v ∧ e.evaluate n = .ok w ∧
        w.toInt = v.bmod 0x10000000000000000) := by
  refine ⟨fun fits => ?_, fun polynomial => ?_⟩
  · have value := evaluate_of_fits fits
    rw [← exactValue_eq_error_iff]
    cases known : e.exactValue n.toInt with
    | error fault => simp [value, known, Except.map]
    | ok v =>
      have back := toInt_ofInt_of_isWord (fits.isWord known)
      simp [value, known, Except.map, back]
  · obtain ⟨v, known⟩ := polynomial.exists_exactValue (n := n.toInt)
    refine ⟨v, Int64.ofInt v, known, ?_, Int64.toInt_ofInt⟩
    rw [evaluate_of_isPolynomial polynomial, known]
    rfl

def leastShared : Expr := binary .div (number Int64.minValue) count

theorem fits_leastShared (word : IsWord n)
    (quotient : ∀ v, leastShared.exactValue n = .ok v → IsWord v) : leastShared.Fits n := by
  intro part v visited value
  cases visited with
  | self => exact quotient v value
  | left visited =>
    cases visited
    cases value
    exact isWord_toInt _
  | right _ visited =>
    cases visited
    cases value
    exact word

/-- The least word has a third and cannot be divided by zero; by -1 its exact quotient does not fit,
and a large square is reduced. -/
theorem evaluate_exactly_leastShared :
    (leastShared.Fits 3 ∧ ∃ w, leastShared.evaluate 3 = .ok w ∧ w.toInt = -3074457345618258602) ∧
    (leastShared.Fits 0 ∧ leastShared.evaluate 0 = .error .divisionByZero) ∧
    (∃ v w, (binary .mul count count).exactValue 0x100000001 = .ok v ∧
      (binary .mul count count).evaluate 0x100000001 = .ok w ∧ w.toInt = v.bmod 0x10000000000000000) ∧
    ¬leastShared.Fits (-1) := by
  have third : leastShared.Fits 3 := fits_leastShared (by decide) (by rintro v ⟨⟩; decide)
  have none : leastShared.Fits 0 := fits_leastShared (by decide) nofun
  have square : (binary .mul count count).IsPolynomial := .binary rfl .count .count
  refine ⟨⟨third, ?_⟩, ⟨none, ?_⟩, ?_, ?_⟩
  · exact (((evaluate_exactly leastShared 3).1 third).1 _).1 rfl
  · exact ((evaluate_exactly leastShared 0).1 none).2.2
      ⟨.div, _, _, _, .self, rfl, rfl, rfl⟩
  · exact (evaluate_exactly (binary .mul count count) 0x100000001).2 square
  · exact fun fits => absurd (fits.isWord rfl) (by decide)

end Expr
end MessageCatalog.Plural
