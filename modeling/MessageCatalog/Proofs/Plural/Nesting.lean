import MessageCatalog.Proofs.Plural.Grammar
import MessageCatalog.Proofs.Plural.Steps

/-! Levels needed by a reading. With that many or more it succeeds alike, with fewer it stops. The
expression in hand keeps one level for its operand and one for each operator; nested levels are
restored. -/
namespace MessageCatalog.Plural

def Exhausted {α : Type} (reading : Except Stop α) : Prop :=
  ∃ stop position, reading = .error stop ∧ stop.cause = .tooDeeplyNested position

theorem Exhausted.bind {α β : Type} {reading : Except Stop α} {f : α → Except Stop β}
    (h : Exhausted reading) : Exhausted (reading >>= f) := by
  obtain ⟨stop, position, rfl, cause⟩ := h
  exact ⟨stop, position, rfl, cause⟩

theorem exhausted_tooDeep {α : Type} (p : Place) :
    Exhausted (p.tooDeep : Except Stop (α × Place)) :=
  ⟨_, _, rfl, rfl⟩

/-- Succeeds with `need` levels or more, and with no fewer. -/
def Needs {α : Type} (need : Nat) (reading : Nat → Except Stop α) (result : α) : Prop :=
  ∀ levels, (need ≤ levels → reading levels = .ok result) ∧
    (levels < need → Exhausted (reading levels))

/-- Of two readings the more demanding one decides. -/
theorem Needs.bind {α β : Type} {first second : Nat} {reading : Nat → Except Stop α}
    {f : Nat → α → Except Stop β} {a : α} {b : β} (h : Needs first reading a)
    (rest : Needs second (fun levels => f levels a) b) :
    Needs (max first second) (fun levels => reading levels >>= f levels) b := by
  intro levels
  refine ⟨fun enough => ?_, fun short => ?_⟩
  · exact (bind_of_ok ((h levels).1 (by omega))).trans ((rest levels).1 (by omega))
  · rcases Nat.lt_or_ge levels first with few | enough
    · exact ((h levels).2 few).bind
    · change Exhausted (reading levels >>= f levels)
      rw [bind_of_ok ((h levels).1 enough)]
      exact (rest levels).2 (by omega)

theorem Needs.map {α β : Type} {need : Nat} {reading : Nat → Except Stop α}
    {f : Nat → α → Except Stop β} {a : α} {b : β} (h : Needs need reading a)
    (rest : ∀ levels, f levels a = .ok b) :
    Needs need (fun levels => reading levels >>= f levels) b := by
  have last : Needs 0 (fun levels => f levels a) b := fun levels =>
    ⟨fun _ => rest levels, fun short => absurd short (Nat.not_lt_zero levels)⟩
  simpa only [Nat.max_zero] using h.bind last

variable {need spine power : Nat} {p m q : Place} {left e : Expr}

/-- Reads `e` with `need` levels, of which `spine` stay taken. -/
structure Nests (need spine power : Nat) (p : Place) (e : Expr) (q : Place) : Prop where
  spine_le : spine ≤ need
  reads : ∀ levels, need ≤ levels →
    readExpr levels power p = readTail (levels - spine) power e q
  stops : ∀ levels, levels < need → Exhausted (readExpr levels power p)

theorem Nests.closed (h : Nests need spine power p e q) (stays : q.current.kind.power ≤ power) :
    Needs need (fun levels => readExpr levels power p) (e, q) := fun levels =>
  ⟨fun enough => (h.reads levels enough).trans (readTail_stays _ stays), h.stops levels⟩

theorem nests_operand (step : p.Steps m)
    (h : Needs need (fun levels => readOperand (nestedAt levels) levels p.current m) (e, q)) :
    Nests (need + 1) 1 power p e q := by
  refine ⟨Nat.le_add_left 1 need, fun levels enough => ?_, fun levels short => ?_⟩
  · obtain ⟨free, rfl⟩ := Nat.exists_eq_add_of_le' (Nat.le_of_add_left_le enough)
    rw [readExpr, bind_of_ok (Place.advance_of_steps step)]
    exact bind_of_ok ((h free).1 (Nat.le_of_add_le_add_right enough))
  · cases levels with
    | zero => rw [readExpr]; exact exhausted_tooDeep p
    | succ free =>
      rw [readExpr, bind_of_ok (Place.advance_of_steps step)]
      exact ((h free).2 (Nat.lt_of_add_lt_add_right short)).bind

theorem nests_atom (step : p.Steps q)
    (taken : ∀ levels, readOperand (nestedAt levels) levels p.current q = .ok (e, q)) :
    Nests 1 1 power p e q :=
  nests_operand step fun levels =>
    ⟨fun _ => taken levels, fun short => absurd short (Nat.not_lt_zero levels)⟩

theorem nests_number {v : Int64} (reads : p.Reads [.number v] q) :
    Nests 1 1 power p (.number v) q := by
  obtain ⟨kind, m, step, ⟨⟩⟩ := Place.reads_cons_iff.1 reads
  exact nests_atom step fun levels => by rw [readOperand, kind]

theorem nests_count (reads : p.Reads [.count] q) : Nests 1 1 power p .count q := by
  obtain ⟨kind, m, step, ⟨⟩⟩ := Place.reads_cons_iff.1 reads
  exact nests_atom step fun levels => by rw [readOperand, kind]

theorem nests_not (kind : p.current.kind = .not) (step : p.Steps m)
    (operand : Nests need spine 80 m e q) : Nests (need + 1) 1 power p (.not e) q := by
  refine nests_operand step ?_
  simp only [readOperand, kind]
  exact (operand.closed (Kind.power_le _)).map fun _ => rfl

theorem nests_group {r : Place} (opening : p.current.kind = .opening) (step : p.Steps m)
    (inner : Nests need spine 0 m e r) (closing : r.current.kind = .closing) (last : r.Steps q) :
    Nests (need + 1) 1 power p e q := by
  have stays : r.current.kind.power ≤ 0 := by simp [closing, Kind.power]
  refine nests_operand step ?_
  simp only [readOperand, opening]
  exact (inner.closed stays).map fun _ => bind_of_ok (Place.expect_of_steps closing last)

/-- An operator takes one level for good; what it nests takes its levels from the rest. -/
theorem Nests.continued {more : Nat} {r : Place} (h : Nests need spine power p left m)
    (goes : power < m.current.kind.power) (step : m.Steps r)
    (rest : Needs more (fun levels => readContinuation (nestedAt levels) levels left m.current r)
      (e, q)) :
    Nests (max need (spine + 1 + more)) (spine + 1) power p e q := by
  have le := h.spine_le
  refine ⟨by omega, fun levels enough => ?_, fun levels short => ?_⟩
  · obtain ⟨free, left_free⟩ : ∃ free, levels - spine = free + 1 := ⟨levels - spine - 1, by omega⟩
    have same : levels - (spine + 1) = free := by omega
    rw [h.reads levels (by omega), left_free, same, readTail, if_pos goes,
      bind_of_ok (Place.advance_of_steps step)]
    exact bind_of_ok ((rest free).1 (by omega))
  · rcases Nat.lt_or_ge levels need with few | enough
    · exact h.stops levels few
    · rw [h.reads levels enough]
      cases left_free : levels - spine with
      | zero => rw [readTail, if_pos goes]; exact exhausted_tooDeep m
      | succ free =>
        rw [readTail, if_pos goes, bind_of_ok (Place.advance_of_steps step)]
        exact ((rest free).2 (by omega)).bind

theorem nests_binary {o : Op} {more rightSpine : Nat} {r : Place} {right : Expr}
    (h : Nests need spine power p left m) (kind : m.current.kind = .op o) (goes : power < o.power)
    (step : m.Steps r) (operand : Nests more rightSpine o.power r right q)
    (stays : q.current.kind.power ≤ o.power) :
    Nests (max need (spine + 1 + more)) (spine + 1) power p (.binary o left right) q := by
  refine h.continued (by rw [kind]; exact goes) step ?_
  simp only [readContinuation, kind]
  exact (operand.closed stays).map fun _ => rfl

theorem nests_choice {first second s t : Nat} {r u v : Place} {whenTrue whenFalse : Expr}
    (h : Nests need spine power p left m) (kind : m.current.kind = .question)
    (goes : power < 20) (step : m.Steps r) (branch : Nests first s 0 r whenTrue u)
    (colon : u.current.kind = .colon) (next : u.Steps v) (other : Nests second t 0 v whenFalse q)
    (stays : q.current.kind.power ≤ 0) :
    Nests (max need (spine + 1 + max first second)) (spine + 1) power p
      (.choice left whenTrue whenFalse) q := by
  have middle : u.current.kind.power ≤ 0 := by simp [colon, Kind.power]
  refine h.continued (by rw [kind]; exact goes) step ?_
  simp only [readContinuation, kind]
  refine (branch.closed middle).bind ?_
  have passed (levels : Nat) : u.expect levels .colon .colon = .ok (u.current, v) :=
    Place.expect_of_steps colon next
  simp only [passed]
  exact (other.closed stays).map fun _ => rfl

end MessageCatalog.Plural
