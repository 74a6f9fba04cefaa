import MessageCatalog.Plural.Staged

/-! Staging preserves evaluation. A part independent of the count may be evaluated at any count, as
it answers all counts alike, faults included. -/
namespace MessageCatalog.Plural.Expr

theorem evaluate_of_not_usesCount {e : Expr} (settled : e.usesCount = false) (n m : Int64) :
    e.evaluate n = e.evaluate m := by
  induction e with
  | number v => rfl
  | count => simp [usesCount] at settled
  | not x ih =>
    have operand := ih (by simpa [usesCount] using settled)
    simp only [evaluate, operand]
  | binary op l r left right =>
    obtain ⟨sl, sr⟩ : l.usesCount = false ∧ r.usesCount = false := by
      simpa [usesCount] using settled
    simp only [evaluate, left sl, right sr]
  | choice c t e condition whenTrue whenFalse =>
    obtain ⟨⟨sc, st⟩, se⟩ : (c.usesCount = false ∧ t.usesCount = false) ∧ e.usesCount = false := by
      simpa [usesCount] using settled
    simp only [evaluate, condition sc, whenTrue st, whenFalse se]

theorem staged_of_not_usesCount {e : Expr} (settled : e.usesCount = false) (n : Int64) :
    e.staged n = e.evaluate 0 := by
  cases e with
  | number v => rfl
  | count => simp [usesCount] at settled
  | not x =>
    have operand : x.usesCount = false := by simpa [usesCount] using settled
    simp [staged, operand]
  | binary op l r =>
    have operands : (l.usesCount || r.usesCount) = false := settled
    simp [staged, operands]
  | choice c t e => simp [staged, settled]

/-- The forms with a literal operand only spare a call. -/
theorem staged_binary {op : Op} {l r : Expr} (uses : (binary op l r).usesCount = true) :
    (binary op l r).staged = joined op l.staged r.staged := by
  have operands : (l.usesCount || r.usesCount) = true := uses
  conv => lhs; unfold staged
  rw [if_pos operands]
  split
  case h_1 => rfl
  case h_2 => rfl
  case h_3 => rfl

theorem staged_not {x : Expr} (uses : (not x).usesCount = true) (n : Int64) :
    (not x).staged n = (do let v ← x.staged n; .ok (truth (v == 0))) := by
  have operand : x.usesCount = true := uses
  simp [staged, operand]

theorem staged_choice {c t e : Expr} (uses : (choice c t e).usesCount = true) (n : Int64) :
    (choice c t e).staged n =
      (do let v ← c.staged n; if v != 0 then t.staged n else e.staged n) := by
  simp [staged, uses]

theorem staged_eq (e : Expr) : e.staged = e.evaluate := by
  -- A part that ignores the count is settled as a whole, so only the others need the induction.
  funext n
  induction e with
  | number v => rfl
  | count => rfl
  | not x ih =>
    cases uses : (not x).usesCount with
    | false => exact (staged_of_not_usesCount uses n).trans (evaluate_of_not_usesCount uses 0 n)
    | true => rw [staged_not uses, ih, evaluate]
  | binary op l r left right =>
    cases uses : (binary op l r).usesCount with
    | false => exact (staged_of_not_usesCount uses n).trans (evaluate_of_not_usesCount uses 0 n)
    | true =>
      rw [staged_binary uses, joined, left, right, evaluate]
  | choice c t e condition whenTrue whenFalse =>
    cases uses : (choice c t e).usesCount with
    | false => exact (staged_of_not_usesCount uses n).trans (evaluate_of_not_usesCount uses 0 n)
    | true => rw [staged_choice uses, condition, whenTrue, whenFalse, evaluate]

/-- Staging preserves evaluation, for every tree and count. -/
theorem staged_eq_evaluate (e : Expr) (n : Int64) : e.staged n = e.evaluate n :=
  congrFun (staged_eq e) n

end MessageCatalog.Plural.Expr
