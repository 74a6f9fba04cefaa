import MessageCatalog.Proofs.Plural.OneCall

/-! Comparison of two readings with equal levels. Readings observe a place by its token and its next
place only, so related places lead to related outcomes. -/
namespace MessageCatalog.Plural

variable {places : Place → Place → Prop} {stops : Stop → Stop → Prop} {α : Type}

/-- Equal values at related places, or related stops. -/
inductive Alike (places : Place → Place → Prop) (stops : Stop → Stop → Prop) :
    Except Stop (α × Place) → Except Stop (α × Place) → Prop where
  | read {a : α} {p q : Place} (along : places p q) : Alike places stops (.ok (a, p)) (.ok (a, q))
  | stopped {s t : Stop} (along : stops s t) : Alike places stops (.error s) (.error t)

theorem alike_iff_follows {x y : Except Stop (α × Place)} :
    Alike places stops x y ↔ Follows places stops (fun _ => False) x y := by
  constructor
  · rintro (along | along)
    · exact .read along
    · exact .stopped along
  · rintro (along | along | gone)
    · exact .read along
    · exact .stopped along
    · exact gone.elim

/-- What related places and stops must share. -/
structure Correspondence (places : Place → Place → Prop) (stops : Stop → Stop → Prop) : Prop where
  current : ∀ {p q}, places p q → p.current = q.current
  advance : ∀ {p q}, places p q → ∀ levels,
    Alike places stops (p.advance levels) (q.advance levels)
  /-- A token is refused where it stands or at a place after it. -/
  refuse : ∀ {p q}, places p q → ∀ {m n}, places m n → ∀ levels wanted,
    stops ⟨.unexpectedToken wanted p.current.kind p.current.position, m, levels⟩
      ⟨.unexpectedToken wanted p.current.kind p.current.position, n, levels⟩
  tooDeep : ∀ {p q}, places p q →
    stops ⟨.tooDeeplyNested p.current.position, p, 0⟩ ⟨.tooDeeplyNested p.current.position, q, 0⟩

namespace Correspondence

variable (c : Correspondence places stops) {p q : Place}

include c

theorem simulates (levels : Nat) : Simulates places stops (fun _ => False) levels levels where
  current := c.current
  advance := fun h => alike_iff_follows.1 (c.advance h levels)
  refuse := fun taken _ _ h wanted => c.refuse taken h levels wanted

theorem alike_expect (h : places p q) (levels : Nat) (kind : Kind) (wanted : Wanted) :
    Alike places stops (p.expect levels kind wanted) (q.expect levels kind wanted) :=
  alike_iff_follows.2 ((c.simulates levels).follows_expect h kind wanted)

theorem alike_readExpr (h : places p q) (levels power : Nat) :
    Alike places stops (readExpr levels power p) (readExpr levels power q) := by
  have same : Outlasts places stops (fun _ => False) levels 0 :=
    ⟨fun fewer _ => c.simulates fewer, fun h => .inr ⟨rfl, c.tooDeep h⟩⟩
  exact alike_iff_follows.2 (same.follows_readExpr power h)

/-- Whole texts come to the same expression or to related stops. -/
theorem whole_alike (h : places p q) (levels : Nat) :
    (∃ e, (⟨p, levels⟩ : Reader).whole = .ok e ∧ (⟨q, levels⟩ : Reader).whole = .ok e) ∨
    ∃ s t, stops s t ∧ (⟨p, levels⟩ : Reader).whole = .error s.cause ∧
      (⟨q, levels⟩ : Reader).whole = .error t.cause := by
  have first := c.alike_readExpr h levels 0
  simp only [Reader.whole, Reader.expression]
  generalize readExpr levels 0 p = x at first ⊢
  generalize readExpr levels 0 q = y at first ⊢
  cases first with
  | stopped along => exact .inr ⟨_, _, along, rfl, rfl⟩
  | @read e m n along =>
    have last := c.alike_expect along levels .finish .finish
    simp only
    generalize m.expect levels .finish .finish = x at last ⊢
    generalize n.expect levels .finish .finish = y at last ⊢
    cases last with
    | read _ => exact .inl ⟨e, rfl, rfl⟩
    | stopped along => exact .inr ⟨_, _, along, rfl, rfl⟩

end Correspondence
end MessageCatalog.Plural
