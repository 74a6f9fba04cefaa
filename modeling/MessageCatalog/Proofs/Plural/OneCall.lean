import MessageCatalog.Proofs.Plural.Steps

/-! One call for an expression, with its nested calls answered by a parameter; the reader answers
its own calls. Comparisons of two such calls lift to the reader by one induction. -/
namespace MessageCatalog.Plural

abbrev Readings := Nat → Nested

def tailWith (readings : Readings) :
    (levels power : Nat) → Expr → Place → Except Stop (Expr × Place)
  | 0, power, left, p =>
    if power < p.current.kind.power then p.tooDeep else .ok (left, p)
  | levels + 1, power, left, p =>
    if power < p.current.kind.power then do
      let (token, p) ← p.advance levels
      let (left, p) ← readContinuation (readings levels) levels left token p
      tailWith readings levels power left p
    else .ok (left, p)

def readWith (readings : Readings) : Readings
  | 0, _, p => p.tooDeep
  | levels + 1, power, p => do
    let (token, p) ← p.advance levels
    let (left, p) ← readOperand (readings levels) levels token p
    tailWith readings levels power left p

theorem tailWith_readExpr (levels power : Nat) (left : Expr) (p : Place) :
    tailWith readExpr levels power left p = readTail levels power left p := by
  induction levels generalizing left p with
  | zero => rw [tailWith, readTail]
  | succ levels ih => simp only [tailWith, readTail, ih]

theorem readWith_readExpr : readWith readExpr = readExpr := by
  funext levels power p
  cases levels with
  | zero => rw [readWith, readExpr]
  | succ levels => simp only [readWith, readExpr, tailWith_readExpr]

theorem tailWith_stays {readings : Readings} {power : Nat} {left : Expr} {p : Place} (levels : Nat)
    (stays : p.current.kind.power ≤ power) :
    tailWith readings levels power left p = .ok (left, p) := by
  cases levels with
  | zero => rw [tailWith, if_neg (Nat.not_lt.2 stays)]
  | succ levels => rw [tailWith, if_neg (Nat.not_lt.2 stays)]

/-- Related outcomes; where the first was lost, the second is unconstrained. -/
inductive Follows {α : Type} (places : Place → Place → Prop) (stops : Stop → Stop → Prop)
    (lost : Stop → Prop) : Except Stop (α × Place) → Except Stop (α × Place) → Prop where
  | read {a : α} {p q : Place} (along : places p q) :
      Follows places stops lost (.ok (a, p)) (.ok (a, q))
  | stopped {s t : Stop} (along : stops s t) : Follows places stops lost (.error s) (.error t)
  | lost {s : Stop} {y : Except Stop (α × Place)} (gone : lost s) :
      Follows places stops lost (.error s) y

section Following

variable {α β : Type} {places : Place → Place → Prop} {stops : Stop → Stop → Prop}
  {lost : Stop → Prop} {x y : Except Stop (α × Place)}

theorem Follows.bind {f g : α × Place → Except Stop (β × Place)} (h : Follows places stops lost x y)
    (rest : ∀ a p q, x = .ok (a, p) → places p q →
      Follows places stops lost (f (a, p)) (g (a, q))) :
    Follows places stops lost (x >>= f) (y >>= g) := by
  cases h with
  | read along => exact rest _ _ _ rfl along
  | stopped along => exact .stopped along
  | lost gone => exact .lost gone

theorem Follows.refl (x : Except Stop (α × Place)) : Follows Eq Eq lost x x := by
  cases x with
  | ok result => exact .read rfl
  | error stop => exact .stopped rfl

theorem Follows.lost_or_eq (h : Follows Eq Eq lost x y) : (∃ s, lost s ∧ x = .error s) ∨ x = y := by
  cases h with
  | read along => exact .inr (along ▸ rfl)
  | stopped along => exact .inr (congrArg _ along)
  | lost gone => exact .inl ⟨_, gone, rfl⟩

/-- Both readings see equal tokens and proceed alike. -/
structure Simulates (places : Place → Place → Prop) (stops : Stop → Stop → Prop)
    (lost : Stop → Prop) (levels others : Nat) : Prop where
  current : ∀ {p q}, places p q → p.current = q.current
  advance : ∀ {p q}, places p q →
    Follows places stops lost (p.advance levels) (q.advance others)
  /-- A token is refused where it stands or at a place after it. -/
  refuse : ∀ {p q}, places p q → ∀ {m n}, places m n → ∀ wanted,
    stops ⟨.unexpectedToken wanted p.current.kind p.current.position, m, levels⟩
      ⟨.unexpectedToken wanted p.current.kind p.current.position, n, others⟩

theorem simulates_eq {levels others : Nat}
    (along : ∀ cause p, stops ⟨cause, p, levels⟩ ⟨cause, p, others⟩) :
    Simulates Eq stops lost levels others where
  current := congrArg Place.current
  advance := by
    rintro p q rfl
    unfold Place.advance
    split
    · exact .read rfl
    · exact .stopped (along _ _)
  refuse := by
    rintro p q rfl m n rfl wanted
    exact along _ _

namespace Simulates

variable {levels others : Nat} {nested other : Nested} {p q m n : Place}
  (c : Simulates places stops lost levels others)

include c

theorem follows_expect (h : places p q) (kind : Kind) (wanted : Wanted) :
    Follows places stops lost (p.expect levels kind wanted) (q.expect others kind wanted) := by
  unfold Place.expect
  rw [← c.current h]
  split
  · exact c.advance h
  · exact .stopped (c.refuse h h wanted)

variable (below : ∀ power p q, places p q →
    Follows places stops lost (nested power p) (other power q))

include below

theorem follows_readOperand (taken : places p q) (h : places m n) :
    Follows places stops lost (readOperand nested levels p.current m)
      (readOperand other others p.current n) := by
  have refused := c.refuse taken h .operand
  unfold readOperand
  cases p.current.kind with
  | number v => exact .read h
  | count => exact .read h
  | not => exact (below _ m n h).bind fun x u v _ along => .read along
  | opening =>
    refine (below 0 m n h).bind fun x u v _ along => ?_
    exact (c.follows_expect along .closing .closing).bind fun _ r s _ along => .read along
  | _ => exact .stopped refused

theorem follows_readContinuation (taken : places p q) (h : places m n) (left : Expr) :
    Follows places stops lost (readContinuation nested levels left p.current m)
      (readContinuation other others left p.current n) := by
  have refused := c.refuse taken h .operator
  unfold readContinuation
  cases p.current.kind with
  | op o => exact (below _ m n h).bind fun right u v _ along => .read along
  | question =>
    refine (below 0 m n h).bind fun t u v _ along => ?_
    refine (c.follows_expect along .colon .colon).bind fun _ r s _ along => ?_
    exact (below 0 r s along).bind fun e x y _ along => .read along
  | _ => exact .stopped refused

end Simulates

/-- The second call may have more levels where running out counts as lost. -/
structure Outlasts (places : Place → Place → Prop) (stops : Stop → Stop → Prop)
    (lost : Stop → Prop) (levels more : Nat) : Prop where
  steps : ∀ fewer ≤ levels - 1, Simulates places stops lost fewer (fewer + more)
  tooDeep : ∀ {p q}, places p q → lost ⟨.tooDeeplyNested p.current.position, p, 0⟩ ∨
    more = 0 ∧ stops ⟨.tooDeeplyNested p.current.position, p, 0⟩
      ⟨.tooDeeplyNested p.current.position, q, 0⟩

theorem outlasts_eq {levels more : Nat}
    (along : ∀ fewer ≤ levels - 1, ∀ cause p, stops ⟨cause, p, fewer⟩ ⟨cause, p, fewer + more⟩)
    (short : more = 0 ∨ ∀ position p, lost ⟨.tooDeeplyNested position, p, 0⟩) :
    Outlasts Eq stops lost levels more where
  steps := fun fewer le => simulates_eq (along fewer le)
  tooDeep := by
    rintro p q rfl
    rcases short with rfl | gone
    · exact .inr ⟨rfl, along 0 (Nat.zero_le _) _ p⟩
    · exact .inl (gone _ p)

theorem outlasts_refl (levels : Nat) : Outlasts Eq Eq lost levels 0 :=
  outlasts_eq (fun _ _ _ _ => rfl) (.inl rfl)

namespace Outlasts

variable {levels more : Nat} {readings others : Readings} {p q : Place}

theorem mono {fewer : Nat} (c : Outlasts places stops lost levels more) (le : fewer ≤ levels) :
    Outlasts places stops lost fewer more where
  steps := fun least lt => c.steps least (Nat.le_trans lt (Nat.sub_le_sub_right le 1))
  tooDeep := c.tooDeep

theorem follows_tailWith (c : Outlasts places stops lost levels more)
    (below : ∀ fewer < levels, ∀ power p q, places p q →
      Follows places stops lost (readings fewer power p) (others (fewer + more) power q))
    (power : Nat) (left : Expr) (h : places p q) :
    Follows places stops lost (tailWith readings levels power left p)
      (tailWith others (levels + more) power left q) := by
  induction levels generalizing left p q with
  | zero =>
    have current := (c.steps 0 (Nat.le_refl 0)).current h
    rcases Nat.lt_or_ge power p.current.kind.power with goes | stays
    · rw [tailWith, if_pos goes]
      rcases c.tooDeep h with gone | ⟨rfl, along⟩
      · exact .lost gone
      · rw [Nat.add_zero, tailWith, if_pos (current ▸ goes)]
        rw [Place.tooDeep, Place.tooDeep, ← current]
        exact .stopped along
    · rw [tailWith_stays _ stays, tailWith_stays _ (current ▸ stays)]
      exact .read h
  | succ levels ih =>
    have here := c.steps levels (Nat.le_refl levels)
    rw [Nat.succ_add, tailWith, tailWith, ← here.current h]
    split
    · refine (here.advance h).bind fun token m n taken along => ?_
      obtain ⟨rfl, -⟩ := Place.advance_ok taken
      have nested := below levels (Nat.lt_succ_self levels)
      refine (here.follows_readContinuation nested h along left).bind fun longer u v _ along => ?_
      exact ih (c.mono (Nat.le_succ levels))
        (fun fewer lt => below fewer (Nat.lt_succ_of_lt lt)) longer along
    · exact .read h

theorem follows_readWith (c : Outlasts places stops lost levels more)
    (below : ∀ fewer < levels, ∀ power p q, places p q →
      Follows places stops lost (readings fewer power p) (others (fewer + more) power q))
    (power : Nat) (h : places p q) :
    Follows places stops lost (readWith readings levels power p)
      (readWith others (levels + more) power q) := by
  cases levels with
  | zero =>
    have current := (c.steps 0 (Nat.le_refl 0)).current h
    rw [readWith]
    rcases c.tooDeep h with gone | ⟨rfl, along⟩
    · exact .lost gone
    · rw [Nat.add_zero, readWith, Place.tooDeep, Place.tooDeep, ← current]
      exact .stopped along
  | succ levels =>
    have here := c.steps levels (Nat.le_refl levels)
    rw [Nat.succ_add, readWith, readWith]
    refine (here.advance h).bind fun token m n taken along => ?_
    obtain ⟨rfl, -⟩ := Place.advance_ok taken
    have nested := below levels (Nat.lt_succ_self levels)
    refine (here.follows_readOperand nested h along).bind fun left u v _ along => ?_
    exact (c.mono (Nat.le_succ levels)).follows_tailWith
      (fun fewer lt => below fewer (Nat.lt_succ_of_lt lt)) power left along

/-- By induction on the levels of the second reader. -/
theorem follows_readExpr (c : Outlasts places stops lost levels more) (power : Nat)
    (h : places p q) :
    Follows places stops lost (readExpr levels power p) (readExpr (levels + more) power q) := by
  induction levels using Nat.strongRecOn generalizing power p q with
  | ind levels ih =>
    rw [← readWith_readExpr]
    refine c.follows_readWith (fun fewer lt power p q h => ?_) power h
    exact ih fewer lt (c.mono (Nat.le_of_lt lt)) power h

end Outlasts

end Following
end MessageCatalog.Plural
