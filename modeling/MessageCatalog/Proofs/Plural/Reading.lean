import MessageCatalog.Proofs.Plural.Nesting
import MessageCatalog.Proofs.Plural.Soundness

/-! The reader accepts the grammar: accepted tokens have a derivation, and a derivation is found
within one level per token. -/
namespace MessageCatalog.Plural

section Completeness

variable {levels power : Nat} {p q : Place} {ks : List Kind} {e : Expr}

/-- A derivation is found within one level per token; the next token must not exceed the power of
the rank. -/
theorem Derives.nests {rank : Rank} (derives : Derives rank ks e) :
    ∃ need spine, spine ≤ need ∧ need ≤ ks.length ∧ ∀ (power : Nat) (p q : Place), p.Reads ks q →
      q.current.kind.power ≤ rank.hold → .above power ≤ rank →
      Nests need spine power p e q := by
  induction derives with
  | number v =>
    exact ⟨1, 1, Nat.le_refl 1, Nat.le_refl 1, fun _ _ _ reads _ _ => nests_number reads⟩
  | count =>
    exact ⟨1, 1, Nat.le_refl 1, Nat.le_refl 1, fun _ _ _ reads _ _ => nests_count reads⟩
  | @group ks e _ ih =>
    obtain ⟨need, spine, -, cost, nests⟩ := ih
    refine ⟨need + 1, 1, Nat.le_add_left 1 need, by simp; omega, fun power p q reads _ _ => ?_⟩
    obtain ⟨opening, r, step, reads⟩ := Place.reads_cons_iff.1 reads
    obtain ⟨s, inner, reads⟩ := Place.reads_append_iff.1 reads
    obtain ⟨closing, t, last, ⟨⟩⟩ := Place.reads_cons_iff.1 reads
    have stays : s.current.kind.power ≤ 0 := by simp [closing, Kind.power]
    exact nests_group opening step (nests 0 r s inner stays (Rank.above_zero_le _)) closing last
  | @not ks e _ ih =>
    obtain ⟨need, spine, -, cost, nests⟩ := ih
    refine ⟨need + 1, 1, Nat.le_add_left 1 need, by simp; omega, fun power p q reads _ _ => ?_⟩
    obtain ⟨kind, r, step, reads⟩ := Place.reads_cons_iff.1 reads
    exact nests_not kind step (nests 80 r q reads (Kind.power_le _) (by decide))
  | @binary o rank ks ms l r tighter _ _ left right =>
    obtain ⟨need, spine, below, cost, nests⟩ := left
    obtain ⟨more, rightSpine, -, rightCost, operand⟩ := right
    rw [o.tighter?_rank] at tighter
    cases tighter
    refine ⟨max need (spine + 1 + more), spine + 1, by omega, ?_,
      fun power p q reads closed le => ?_⟩
    · rw [List.length_append, List.length_cons]
      omega
    · obtain ⟨m, first, reads⟩ := Place.reads_append_iff.1 reads
      obtain ⟨kind, s, step, reads⟩ := Place.reads_cons_iff.1 reads
      have holds : m.current.kind.power = o.rank.hold := by rw [kind, o.hold_rank]; rfl
      have stays : q.current.kind.power ≤ o.power := o.hold_rank ▸ closed
      have loose := Nat.le_trans closed (Rank.hold_le_of_tighter? o.tighter?_rank)
      exact nests_binary (nests power p m first (Nat.le_of_eq holds) le) kind
        (Op.above_le_rank_iff.1 le) step (operand o.power s q reads loose (Nat.le_refl _)) stays
  | @choice ks ms ns c t e _ _ _ condition whenTrue whenFalse =>
    obtain ⟨need, spine, below, cost, nests⟩ := condition
    obtain ⟨first, firstSpine, -, firstCost, branch⟩ := whenTrue
    obtain ⟨second, secondSpine, -, secondCost, other⟩ := whenFalse
    refine ⟨max need (spine + 1 + max first second), spine + 1, by omega, ?_,
      fun power p q reads closed le => ?_⟩
    · simp only [List.length_append, List.length_cons]
      omega
    · obtain ⟨m, before, reads⟩ := Place.reads_append_iff.1 reads
      obtain ⟨kind, s, step, reads⟩ := Place.reads_cons_iff.1 reads
      obtain ⟨u, middle, reads⟩ := Place.reads_append_iff.1 reads
      obtain ⟨colon, v, next, after⟩ := Place.reads_cons_iff.1 reads
      have above : .above power ≤ Rank.or := Rank.le_trans le (by decide)
      have stays : u.current.kind.power ≤ 0 := by simp [colon, Kind.power]
      exact nests_choice (nests power p m before (by rw [kind]; decide) above) kind
        (Rank.above_le_choice_iff.1 le) step
        (branch 0 s u middle stays (Rank.above_zero_le _)) colon next
        (other 0 v q after closed (Rank.above_zero_le _)) closed
  | tighter step _ ih =>
    obtain ⟨need, spine, below, cost, nests⟩ := ih
    refine ⟨need, spine, below, cost, fun power p q reads closed le => ?_⟩
    exact nests power p q reads (Nat.le_trans closed (Rank.hold_le_of_tighter? step))
      (Rank.le_trans le (Rank.le_of_tighter? step))

/-- Reads its tokens within one level each, or runs out of levels. -/
def Passes (levels power : Nat) (p : Place) (ks : List Kind) (e : Expr) (q : Place) : Prop :=
  (∃ free, levels ≤ free + ks.length ∧ readExpr levels power p = readTail free power e q) ∨
    (levels < ks.length ∧ Exhausted (readExpr levels power p))

theorem Passes.closed (h : Passes levels power p ks e q) (stays : q.current.kind.power ≤ power) :
    readExpr levels power p = .ok (e, q) ∨
      (levels < ks.length ∧ Exhausted (readExpr levels power p)) := by
  rcases h with ⟨free, -, same⟩ | short
  · exact .inl (same.trans (readTail_stays free stays))
  · exact .inr short

theorem Derives.passes {rank : Rank} (derives : Derives rank ks e) (levels power : Nat)
    (p q : Place) (reads : p.Reads ks q) (closed : q.current.kind.power ≤ rank.hold)
    (le : .above power ≤ rank) : Passes levels power p ks e q := by
  obtain ⟨need, spine, below, cost, nests⟩ := derives.nests
  have found := nests power p q reads closed le
  rcases Nat.lt_or_ge levels need with short | enough
  · exact .inr ⟨by omega, found.stops levels short⟩
  · exact .inl ⟨levels - spine, by omega, found.reads levels enough⟩

theorem Derives.reads_whole (derives : Derives .choice ks e) (reads : p.Reads ks q)
    (closed : q.current.kind.power = 0) (enough : ks.length ≤ levels) :
    readExpr levels 0 p = .ok (e, q) := by
  have stays := Nat.le_of_eq closed
  have passes := derives.passes levels 0 p q reads stays (Rank.above_zero_le _)
  rcases passes.closed stays with taken | ⟨short, _⟩
  · exact taken
  · omega

/-- Layouts have at most one derivation. -/
theorem Derives.unique {other : Expr} (derives : Derives .choice ks e)
    (second : Derives .choice ks other) (reads : p.Reads ks q)
    (closed : q.current.kind.power = 0) : e = other := by
  have first := derives.reads_whole reads closed (Nat.le_refl _)
  rw [second.reads_whole reads closed (Nat.le_refl _)] at first
  cases first
  rfl

end Completeness

section Texts

variable {levels : Nat} {p q : Place} {e : Expr}

theorem whole_ok {r : Reader} (h : r.whole = .ok e) :
    ∃ q, readExpr r.levels 0 r.place = .ok (e, q) ∧ q.current.kind = .finish := by
  unfold Reader.whole Reader.expression at h
  cases reading : readExpr r.levels 0 r.place with
  | error stop => rw [reading] at h; cases h
  | ok result =>
    obtain ⟨tree, q⟩ := result
    simp only [reading] at h
    split at h
    next done finish =>
      cases h
      obtain ⟨t, q'⟩ := done
      exact ⟨q, rfl, (Place.expect_ok finish).1⟩
    next => cases h

theorem whole_of_reading (reading : readExpr levels 0 p = .ok (e, q))
    (finish : q.current.kind = .finish) (again : q.Steps q) :
    (⟨p, levels⟩ : Reader).whole = .ok e := by
  simp only [Reader.whole, Reader.expression, reading, Place.expect_of_steps finish again]

theorem whole_of_exhausted (h : Exhausted (readExpr levels 0 p)) :
    ∃ position, (⟨p, levels⟩ : Reader).whole = .error (.tooDeeplyNested position) := by
  obtain ⟨stop, position, reading, cause⟩ := h
  exact ⟨position, by simp only [Reader.whole, Reader.expression, reading, cause]⟩

theorem parse_of_next {text : String}
    (first : (Lexer.ofText text.toList).next = (.ok p.current, p.lexer)) :
    parse text = (⟨p, maxNesting⟩ : Reader).whole := by
  rw [parse, Reader.ofText, first]
  rfl

theorem parse_ok {text : String} (h : parse text = .ok e) :
    ∃ p q, (Lexer.ofText text.toList).next = (.ok p.current, p.lexer) ∧
      readExpr maxNesting 0 p = .ok (e, q) ∧ q.current.kind = .finish := by
  cases first : (Lexer.ofText text.toList).next with
  | mk outcome lexer =>
    cases outcome with
    | error cause =>
      rw [parse, Reader.ofText, first] at h
      cases h
    | ok token =>
      rw [parse_of_next (p := ⟨lexer, token⟩) first] at h
      obtain ⟨q, reading, finish⟩ := whole_ok h
      exact ⟨⟨lexer, token⟩, q, rfl, reading, finish⟩

theorem derives_of_parse {text : String} (h : parse text = .ok e) :
    ∃ ts, tokens text = .ok ts ∧ Derives .choice (ts.map Token.kind) e := by
  obtain ⟨p, q, first, reading, finish⟩ := parse_ok h
  obtain ⟨-, ks, reads, derives⟩ := readExpr_sound maxNesting 0 p e q reading
  obtain ⟨ts, ok, same⟩ :=
    Place.tokens_eq_ok_iff.2 ⟨p, q, first, reads, finish, derives.finish_notMem⟩
  exact ⟨ts, ok, same ▸ derives⟩

end Texts

end MessageCatalog.Plural
