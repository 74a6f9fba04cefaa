import MessageCatalog.Proofs.Outcome
import MessageCatalog.Proofs.Plural.Tokens

/-! Inversion of successful steps of a reader: the token taken, the nested readings and the place
after them. -/
namespace MessageCatalog.Plural

namespace Place

variable {p q : Place} {levels : Nat} {t : Token} {kind : Kind} {wanted : Wanted}

theorem advance_of_steps (step : p.Steps q) : p.advance levels = .ok (p.current, q) := by
  rw [advance, step]

theorem advance_ok (h : p.advance levels = .ok (t, q)) : t = p.current ∧ p.Steps q := by
  unfold advance at h
  split at h
  next token lexer step => cases h; exact ⟨rfl, step⟩
  next => cases h

theorem expect_of_steps (same : p.current.kind = kind) (step : p.Steps q) :
    p.expect levels kind wanted = .ok (p.current, q) := by
  rw [expect, if_pos same, advance_of_steps step]

theorem expect_ok (h : p.expect levels kind wanted = .ok (t, q)) :
    p.current.kind = kind ∧ p.Steps q := by
  unfold expect at h
  split at h
  next same => exact ⟨same, (advance_ok h).2⟩
  next => cases h

end Place

abbrev nestedAt (levels : Nat) : Nested := fun power p => readExpr levels power p

variable {nested : Nested} {levels power : Nat} {token : Token} {left e : Expr} {p m q : Place}

/-- Readings of an operand, by its first token. -/
inductive OperandRead (nested : Nested) (token : Token) (m : Place) : Expr → Place → Prop where
  | number {v : Int64} (kind : token.kind = .number v) : OperandRead nested token m (.number v) m
  | count (kind : token.kind = .count) : OperandRead nested token m .count m
  | not {x : Expr} {q : Place} (kind : token.kind = .not) (operand : nested 80 m = .ok (x, q)) :
      OperandRead nested token m (.not x) q
  | group {x : Expr} {r q : Place} (kind : token.kind = .opening) (inner : nested 0 m = .ok (x, r))
      (closing : r.current.kind = .closing) (last : r.Steps q) : OperandRead nested token m x q

theorem readOperand_ok (h : readOperand nested levels token m = .ok (e, q)) :
    OperandRead nested token m e q := by
  unfold readOperand at h
  cases kind : token.kind with
  | number v => rw [kind] at h; cases h; exact .number kind
  | count => rw [kind] at h; cases h; exact .count kind
  | not =>
    rw [kind] at h
    obtain ⟨⟨x, r⟩, operand, h⟩ := bind_ok h
    cases h
    exact .not kind operand
  | opening =>
    rw [kind] at h
    obtain ⟨⟨x, r⟩, inner, h⟩ := bind_ok h
    obtain ⟨⟨t, s⟩, closing, h⟩ := bind_ok h
    cases h
    exact .group kind inner (Place.expect_ok closing).1 (Place.expect_ok closing).2
  | _ => rw [kind] at h; cases h

inductive ContinuationRead (nested : Nested) (left : Expr) (token : Token) (m : Place) :
    Expr → Place → Prop where
  | binary {o : Op} {right : Expr} {q : Place} (kind : token.kind = .op o)
      (operand : nested o.power m = .ok (right, q)) :
      ContinuationRead nested left token m (.binary o left right) q
  | choice {t f : Expr} {u v q : Place} (kind : token.kind = .question)
      (whenTrue : nested 0 m = .ok (t, u)) (colon : u.current.kind = .colon) (next : u.Steps v)
      (whenFalse : nested 0 v = .ok (f, q)) :
      ContinuationRead nested left token m (.choice left t f) q

theorem readContinuation_ok (h : readContinuation nested levels left token m = .ok (e, q)) :
    ContinuationRead nested left token m e q := by
  unfold readContinuation at h
  split at h
  next o kind =>
    obtain ⟨⟨right, r⟩, operand, h⟩ := bind_ok h
    cases h
    exact .binary kind operand
  next kind =>
    obtain ⟨⟨t, u⟩, whenTrue, h⟩ := bind_ok h
    obtain ⟨⟨_, v⟩, colon, h⟩ := bind_ok h
    obtain ⟨⟨f, r⟩, whenFalse, h⟩ := bind_ok h
    cases h
    exact .choice kind whenTrue (Place.expect_ok colon).1 (Place.expect_ok colon).2 whenFalse
  next => cases h

theorem readExpr_zero {r : Expr × Place} : readExpr 0 power p ≠ .ok r := by
  rw [readExpr]
  exact nofun

theorem readExpr_ok (h : readExpr (levels + 1) power p = .ok (e, q)) :
    ∃ m left r, p.Steps m ∧ OperandRead (nestedAt levels) p.current m left r ∧
      readTail levels power left r = .ok (e, q) := by
  rw [readExpr] at h
  obtain ⟨⟨t, m⟩, first, h⟩ := bind_ok h
  obtain ⟨rfl, step⟩ := Place.advance_ok first
  obtain ⟨⟨left, r⟩, operand, h⟩ := bind_ok h
  exact ⟨m, left, r, step, readOperand_ok operand, h⟩

theorem readTail_stays (levels : Nat) (stays : p.current.kind.power ≤ power) :
    readTail levels power left p = .ok (left, p) := by
  cases levels with
  | zero => rw [readTail, if_neg (Nat.not_lt.2 stays)]
  | succ levels => rw [readTail, if_neg (Nat.not_lt.2 stays)]

theorem readTail_ok (h : readTail levels power left p = .ok (e, q)) :
    (p.current.kind.power ≤ power ∧ e = left ∧ q = p) ∨
    ∃ free m longer r, levels = free + 1 ∧ power < p.current.kind.power ∧ p.Steps m ∧
      ContinuationRead (nestedAt free) left p.current m longer r ∧
      readTail free power longer r = .ok (e, q) := by
  rcases Nat.lt_or_ge power p.current.kind.power with goes | stays
  · cases levels with
    | zero =>
      rw [readTail, if_pos goes] at h
      cases h
    | succ free =>
      rw [readTail, if_pos goes] at h
      obtain ⟨⟨t, m⟩, first, h⟩ := bind_ok h
      obtain ⟨rfl, step⟩ := Place.advance_ok first
      obtain ⟨⟨longer, r⟩, continuation, h⟩ := bind_ok h
      exact .inr ⟨free, m, longer, r, rfl, goes, step, readContinuation_ok continuation, h⟩
  · rw [readTail_stays levels stays] at h
    cases h
    exact .inl ⟨stays, rfl, rfl⟩

theorem Reader.levels_ofText {text : List Char} {r : Reader} (h : Reader.ofText text = .ok r) :
    r.levels = maxNesting := by
  unfold ofText at h
  split at h
  next => cases h; rfl
  next => cases h

end MessageCatalog.Plural
