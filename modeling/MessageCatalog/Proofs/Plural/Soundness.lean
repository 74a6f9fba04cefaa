import MessageCatalog.Proofs.Plural.Grammar
import MessageCatalog.Proofs.Plural.Steps

/-! Accepted tokens have a derivation, from every place, power and number of levels. One call builds
the left spine of its tree, with operators that bind tighter than its power. -/
namespace MessageCatalog.Plural

/-- An operand and the operators applied to it, in order. -/
inductive Spine : Rank → List Kind → Expr → List Kind → Prop where
  | operand {ks : List Kind} {e : Expr} (derives : Derives .unary ks e) : Spine .unary ks e []
  | binary {o : Op} {rank next : Rank} {ks ms applied : List Kind} {l r : Expr}
      (left : Spine rank ks l applied) (whole : o.rank ≤ rank)
      (tighter : o.rank.tighter? = some next) (right : Derives next ms r) :
      Spine o.rank (ks ++ .op o :: ms) (.binary o l r) (applied ++ [.op o])
  | choice {rank : Rank} {ks ms ns applied : List Kind} {c t e : Expr}
      (condition : Spine rank ks c applied) (whole : .or ≤ rank)
      (whenTrue : Derives .choice ms t) (whenFalse : Derives .choice ns e) :
      Spine .choice (ks ++ .question :: (ms ++ .colon :: ns)) (.choice c t e)
        (applied ++ [.question])

namespace Spine

variable {rank : Rank} {ks applied : List Kind} {e : Expr}

theorem derives (h : Spine rank ks e applied) : Derives rank ks e := by
  induction h with
  | operand derives => exact derives
  | binary _ whole tighter right left => exact .binary tighter (left.loosen whole) right
  | choice _ whole whenTrue whenFalse condition =>
    exact .choice (condition.loosen whole) whenTrue whenFalse

theorem above_le {power : Nat} (h : Spine rank ks e applied)
    (tight : ∀ kind ∈ applied, power < kind.power) : .above power ≤ rank := by
  cases h with
  | operand => exact Rank.above_le_unary power
  | @binary o => exact Op.above_le_rank_iff.2 (tight (.op o) (by simp))
  | choice => exact Rank.above_le_choice_iff.2 (tight .question (by simp))

end Spine

/-- The current token may continue the whole expression in hand. -/
def InHand (power : Nat) (start : Place) (e : Expr) (p : Place) : Prop :=
  ∃ rank ks applied, start.Reads ks p ∧ Spine rank ks e applied ∧
    p.current.kind.power ≤ rank.hold ∧ ∀ kind ∈ applied, power < kind.power

def Sound (nested : Nested) : Prop :=
  ∀ power p e q, nested power p = .ok (e, q) →
    q.current.kind.power ≤ power ∧ ∃ ks, p.Reads ks q ∧ Derives (.above power) ks e

section Steps

variable {nested : Nested} {power : Nat} {start p m q : Place} {left e : Expr}

theorem InHand.derives (h : InHand power start e p) :
    ∃ ks, start.Reads ks p ∧ Derives (.above power) ks e := by
  obtain ⟨rank, ks, applied, reads, spine, -, tight⟩ := h
  exact ⟨ks, reads, spine.derives.loosen (spine.above_le tight)⟩

theorem OperandRead.inHand (sound : Sound nested) (step : p.Steps m)
    (read : OperandRead nested p.current m e q) : InHand power p e q := by
  have taken (ks : List Kind) (reads : p.Reads ks q) (derives : Derives .unary ks e) :
      InHand power p e q := ⟨.unary, ks, [], reads, .operand derives, Kind.power_le _, nofun⟩
  cases read with
  | @number v kind => exact taken _ (kind ▸ step.reads) (.tighter rfl (.number v))
  | count kind => exact taken _ (kind ▸ step.reads) (.tighter rfl .count)
  | not kind operand =>
    obtain ⟨-, ks, reads, derives⟩ := sound _ _ _ _ operand
    exact taken _ (Place.reads_cons_iff.2 ⟨kind, m, step, reads⟩) (.not derives)
  | group kind inner closing last =>
    obtain ⟨-, ks, reads, derives⟩ := sound _ _ _ _ inner
    refine taken (.opening :: ks ++ [.closing]) ?_ (.tighter rfl (.group derives))
    exact Place.reads_cons_iff.2 ⟨kind, m, step, reads.append (closing ▸ last.reads)⟩

/-- An operator takes the expression in hand as a whole. -/
theorem ContinuationRead.inHand (sound : Sound nested) (h : InHand power start left p)
    (goes : power < p.current.kind.power) (step : p.Steps m)
    (read : ContinuationRead nested left p.current m e q) : InHand power start e q := by
  obtain ⟨rank, ks, applied, before, spine, whole, tight⟩ := h
  have tighter : ∀ kind ∈ applied ++ [p.current.kind], power < kind.power :=
    List.forall_mem_append.2 ⟨tight, List.forall_mem_singleton.2 goes⟩
  cases read with
  | @binary o right _ kind operand =>
    obtain ⟨closed, ms, reads, right⟩ := sound _ _ _ _ operand
    rw [kind] at whole tighter
    refine ⟨o.rank, ks ++ .op o :: ms, _, ?_, ?_, o.hold_rank ▸ closed, tighter⟩
    · exact before.append (Place.reads_cons_iff.2 ⟨kind, m, step, reads⟩)
    · exact .binary spine (Op.rank_le_of_power_le_hold whole) o.tighter?_rank right
  | choice kind whenTrue colon next whenFalse =>
    obtain ⟨-, ms, readsTrue, whenTrue⟩ := sound _ _ _ _ whenTrue
    obtain ⟨closed, ns, readsFalse, whenFalse⟩ := sound _ _ _ _ whenFalse
    rw [kind] at whole tighter
    refine ⟨.choice, ks ++ .question :: (ms ++ .colon :: ns), _, ?_, ?_, closed, tighter⟩
    · have rest := Place.reads_cons_iff.2 ⟨colon, _, next, readsFalse⟩
      have branches := Place.reads_cons_iff.2 ⟨kind, m, step, readsTrue.append rest⟩
      exact before.append branches
    · exact .choice spine (Rank.or_le_of_hold whole) whenTrue whenFalse

end Steps

/-- By induction on the levels, for both loops at once. -/
theorem read_inHand (levels : Nat) :
    (∀ power p e q, readExpr levels power p = .ok (e, q) →
      q.current.kind.power ≤ power ∧ InHand power p e q) ∧
    ∀ power start left p e q, InHand power start left p →
      readTail levels power left p = .ok (e, q) →
      q.current.kind.power ≤ power ∧ InHand power start e q := by
  induction levels with
  | zero =>
    refine ⟨fun power p e q h => absurd h readExpr_zero, ?_⟩
    intro power start left p e q held h
    obtain ⟨stays, rfl, rfl⟩ | ⟨free, _, _, _, none, _⟩ := readTail_ok h
    · exact ⟨stays, held⟩
    · cases none
  | succ levels ih =>
    obtain ⟨nested, tail⟩ := ih
    have sound : Sound (nestedAt levels) := fun power p e q h =>
      ⟨(nested power p e q h).1, (nested power p e q h).2.derives⟩
    refine ⟨fun power p e q h => ?_, fun power start left p e q held h => ?_⟩
    · obtain ⟨m, left, r, step, operand, h⟩ := readExpr_ok h
      exact tail power p left r e q (operand.inHand sound step) h
    · obtain ⟨stays, rfl, rfl⟩ | ⟨free, m, longer, r, same, goes, step, read, h⟩ := readTail_ok h
      · exact ⟨stays, held⟩
      · cases same
        exact tail power start longer r e q (read.inHand sound held goes step) h

theorem readExpr_sound (levels : Nat) : Sound (nestedAt levels) := fun power p e q h =>
  have ⟨closed, held⟩ := (read_inHand levels).1 power p e q h
  ⟨closed, held.derives⟩

namespace Reader

/-- In every state: levels are restored, the next token is at most the power, and the tokens passed
are an operand with tighter operators applied to it. -/
theorem spine_of_expression {r after : Reader} {power : Nat} {e : Expr}
    (h : r.expression power = (.ok e, after)) :
    after.levels = r.levels ∧ after.place.current.kind.power ≤ power ∧
    ∃ ks rank applied, r.place.Reads ks after.place ∧ Derives .choice ks e ∧
      Spine rank ks e applied ∧ ∀ kind ∈ applied, power < kind.power := by
  unfold expression at h
  split at h
  next tree p reading =>
    cases h
    obtain ⟨closed, rank, ks, applied, reads, spine, -, tight⟩ :=
      (read_inHand r.levels).1 power r.place e p reading
    exact ⟨rfl, closed, ks, rank, applied, reads,
      spine.derives.loosen (Rank.above_zero_le rank), spine, tight⟩
  next => cases h

/-- In `(n-1)*2-3<n`, with few levels free and the parenthesis as the current token. -/
theorem spine_of_expression_difference :
    let r : Reader :=
      ⟨⟨⟨['n', '-', '1', ')', '*', '2', '-', '3', '<', 'n'], 2, false⟩, ⟨.opening, 1⟩⟩, 5⟩
    let after : Reader := ⟨⟨⟨['n'], 11, false⟩, ⟨.op .lt, 10⟩⟩, 5⟩
    let e : Expr :=
      .binary .sub (.binary .mul (.binary .sub .count (.number 1)) (.number 2)) (.number 3)
    r.expression 55 = (.ok e, after) ∧ ∃ ks rank applied, r.place.Reads ks after.place ∧
      Derives .choice ks e ∧ Spine rank ks e applied ∧ ∀ kind ∈ applied, 55 < kind.power := by
  intro r after e
  have read : r.expression 55 = (.ok e, after) := by decide +kernel
  exact ⟨read, (spine_of_expression read).2.2⟩

end Reader
end MessageCatalog.Plural
