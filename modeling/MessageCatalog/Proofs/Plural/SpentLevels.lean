import Mathlib.Data.Nat.Find
import MessageCatalog.Proofs.Plural.Calls
import MessageCatalog.Proofs.Plural.OneCall
import MessageCatalog.Proofs.Plural.Rendering

/-! Repeated calls after failures. Each failure costs at least one level, and a later expression is
read as by a fresh reader while the remaining levels cover its demand. -/
namespace MessageCatalog.Plural

section Readings

variable {α : Type} {levels power : Nat} {p : Place}

def ranOut : Except Stop α → Bool
  | .error ⟨.tooDeeplyNested _, _, _⟩ => true
  | _ => false

theorem ranOut_iff {reading : Except Stop α} : ranOut reading = true ↔ Exhausted reading := by
  constructor
  · intro h
    unfold ranOut at h
    split at h
    · exact ⟨_, _, rfl, rfl⟩
    · cases h
  · rintro ⟨⟨_, place, left⟩, position, rfl, rfl⟩
    rfl

/-- More levels do not change a reading that does not run out, and remain where it fails. -/
theorem readExpr_more (more : Nat) (h : ¬ Exhausted (readExpr levels power p)) :
    (∃ result, readExpr levels power p = .ok result ∧
      readExpr (levels + more) power p = .ok result) ∨
    ∃ s, readExpr levels power p = .error s ∧
      readExpr (levels + more) power p = .error { s with levels := s.levels + more } := by
  have outlasts : Outlasts Eq (fun s t => t = { s with levels := s.levels + more })
      (fun s => ∃ position, s.cause = .tooDeeplyNested position) levels more :=
    outlasts_eq (fun _ _ _ _ => rfl) (.inr fun position _ => ⟨position, rfl⟩)
  have follows := outlasts.follows_readExpr power (Eq.refl p)
  generalize readExpr levels power p = x at h follows ⊢
  generalize readExpr (levels + more) power p = y at follows ⊢
  cases follows with
  | read along => exact .inl ⟨_, rfl, along ▸ rfl⟩
  | stopped along => exact .inr ⟨_, rfl, congrArg _ along⟩
  | @lost s _ gone =>
    obtain ⟨position, cause⟩ := gone
    exact absurd ⟨s, position, rfl, cause⟩ h

theorem not_exhausted_more (more : Nat) (h : ¬ Exhausted (readExpr levels power p)) :
    ¬ Exhausted (readExpr (levels + more) power p) := by
  rintro ⟨t, position, again, cause⟩
  rcases readExpr_more more h with ⟨result, -, same⟩ | ⟨s, reading, same⟩
  · rw [again] at same
    cases same
  · rw [again] at same
    cases same
    exact h ⟨s, position, reading, cause⟩

/-- A failing reading loses its own level. -/
theorem levels_of_stop {stop : Stop} (h : readExpr levels power p = .error stop) :
    stop.levels ≤ levels - 1 := by
  have outlasts : Outlasts Eq (fun s _ => s.levels ≤ levels - 1) (fun _ => False) levels 0 :=
    outlasts_eq (fun _ le _ _ => le) (.inl rfl)
  have follows := outlasts.follows_readExpr power (Eq.refl p)
  rw [Nat.add_zero, h] at follows
  cases follows with
  | stopped le => exact le
  | lost gone => exact gone.elim

end Readings

theorem Place.exists_demand (p : Place) (power : Nat) :
    ∃ levels, levels = maxNesting ∨ ranOut (readExpr levels power p) = false :=
  ⟨maxNesting, .inl rfl⟩

/-- The least number of levels that decides the outcome. -/
def Place.demand (p : Place) (power : Nat) : Nat := Nat.find (p.exists_demand power)

section Demand

variable {levels power : Nat} {p : Place}

theorem demand_le (goes : ranOut (readExpr levels power p) = false) : p.demand power ≤ levels :=
  Nat.find_min' _ (.inr goes)

theorem exhausted_of_lt_demand (short : levels < p.demand power) :
    Exhausted (readExpr levels power p) := by
  obtain ⟨-, runsOut⟩ := not_or.1 (Nat.find_min _ short)
  exact ranOut_iff.1 (eq_true_of_ne_false runsOut)

theorem not_exhausted_of_demand_le (enough : p.demand power ≤ levels) (lt : levels < maxNesting) :
    ¬ Exhausted (readExpr levels power p) := by
  have least : ¬ Exhausted (readExpr (p.demand power) power p) := fun exhausted => by
    rcases Nat.find_spec (p.exists_demand power) with all | goes
    · exact absurd (Nat.lt_of_le_of_lt enough lt) (Nat.not_lt.2 (Nat.le_of_eq all.symm))
    · cases goes.symm.trans (ranOut_iff.2 exhausted)
  obtain ⟨more, rfl⟩ := Nat.exists_eq_add_of_le enough
  exact not_exhausted_more more least

theorem demand_pos (p : Place) (power : Nat) : 0 < p.demand power := by
  refine Nat.pos_of_ne_zero fun none => ?_
  refine not_exhausted_of_demand_le (Nat.le_of_eq none) (show 0 < maxNesting by decide) ?_
  rw [readExpr]
  exact exhausted_tooDeep p

end Demand

namespace Reader

variable {r : Reader} {power : Nat}

def failures (r : Reader) : List Nat → Nat
  | [] => 0
  | power :: powers =>
    (if (r.expression power).1.isOk then 0 else 1) + (r.expression power).2.failures powers

theorem levels_expression (r : Reader) (power : Nat) :
    ((r.expression power).1.isOk = true → (r.expression power).2.levels = r.levels) ∧
    ((r.expression power).1.isOk = false → (r.expression power).2.levels ≤ r.levels - 1) := by
  unfold expression
  split
  next => exact ⟨fun _ => rfl, nofun⟩
  next stop reading => exact ⟨nofun, fun _ => levels_of_stop reading⟩

theorem levels_afterExpressions (r : Reader) (powers : List Nat) :
    (r.afterExpressions powers).levels ≤ r.levels - r.failures powers ∧
    (r.failures powers = 0 → (r.afterExpressions powers).levels = r.levels) := by
  induction powers generalizing r with
  | nil => exact ⟨Nat.le_refl _, fun _ => rfl⟩
  | cons power powers ih =>
    obtain ⟨same, fewer⟩ := r.levels_expression power
    obtain ⟨bound, kept⟩ := ih (r.expression power).2
    have after : r.afterExpressions (power :: powers) =
        (r.expression power).2.afterExpressions powers := rfl
    rw [after, failures]
    cases outcome : (r.expression power).1.isOk with
    | true =>
      have same := same outcome
      rw [if_pos rfl]
      exact ⟨by omega, fun none => by omega⟩
    | false =>
      have fewer := fewer outcome
      rw [if_neg Bool.false_ne_true]
      exact ⟨by omega, fun none => by omega⟩

/-- Both readers give the same, reach the same place and lose as many levels. -/
theorem expression_of_demand_le {p : Place} {levels : Nat} (enough : p.demand power ≤ levels)
    (le : levels ≤ maxNesting) :
    (⟨p, maxNesting⟩ : Reader).expression power =
      (((⟨p, levels⟩ : Reader).expression power).1,
        ⟨((⟨p, levels⟩ : Reader).expression power).2.place,
          ((⟨p, levels⟩ : Reader).expression power).2.levels + (maxNesting - levels)⟩) := by
  rcases Nat.lt_or_eq_of_le le with lt | rfl
  · obtain ⟨more, all⟩ := Nat.exists_eq_add_of_le le
    have goes := not_exhausted_of_demand_le enough lt
    rw [all, Nat.add_sub_cancel_left]
    unfold expression
    rcases readExpr_more more goes with ⟨result, reading, again⟩ | ⟨stop, reading, again⟩
    · simp only [reading, again]
    · simp only [reading, again]
  · rw [Nat.sub_self, Nat.add_zero]

theorem expression_of_lt_demand (short : r.levels < r.place.demand power) :
    ∃ position, (r.expression power).1 = .error (.tooDeeplyNested position) := by
  obtain ⟨stop, position, reading, cause⟩ := exhausted_of_lt_demand short
  refine ⟨position, ?_⟩
  unfold expression
  rw [reading]
  exact congrArg _ cause

/-- Compared with a fresh reader at the same token: each failure takes one level for good and
nothing else does; while enough levels for the expression are left both readers agree, and otherwise
the levels run out, as always after 256 failures. -/
theorem expression_after_failures {text : List Char} {start : Reader}
    (first : ofText text = .ok start) (powers : List Nat) (power : Nat) :
    let r := start.afterExpressions powers
    let fresh : Reader := ⟨r.place, maxNesting⟩
    r.levels ≤ maxNesting - start.failures powers ∧
    (start.failures powers = 0 → r = fresh) ∧
    (r.place.demand power ≤ r.levels →
      (r.expression power).1 = (fresh.expression power).1 ∧
      (r.expression power).2.place = (fresh.expression power).2.place ∧
      (r.expression power).2.levels + (maxNesting - r.levels) =
        (fresh.expression power).2.levels) ∧
    (r.levels < r.place.demand power →
      ∃ position, (r.expression power).1 = .error (.tooDeeplyNested position)) ∧
    (maxNesting ≤ start.failures powers →
      ∃ position, (r.expression power).1 = .error (.tooDeeplyNested position)) := by
  intro r fresh
  have all : start.levels = maxNesting := levels_ofText first
  obtain ⟨bound, kept⟩ := start.levels_afterExpressions powers
  rw [all] at bound kept
  refine ⟨bound, fun none => ?_, fun enough => ?_, expression_of_lt_demand, fun many => ?_⟩
  · have same : r.levels = maxNesting := kept none
    exact congrArg (Reader.mk r.place) same
  · have whole := expression_of_demand_le enough (Nat.le_trans bound (Nat.sub_le _ _))
    have same : fresh.expression power = _ := whole
    rw [same]
    exact ⟨rfl, rfl, rfl⟩
  · rw [Nat.sub_eq_zero_of_le many] at bound
    exact expression_of_lt_demand (Nat.lt_of_le_of_lt bound (demand_pos r.place power))

/-- In `)n` the parenthesis is refused, which leaves enough levels for the count. -/
theorem expression_after_failures_closing :
    let start : Reader := ⟨⟨⟨['n'], 1, false⟩, ⟨.closing, 0⟩⟩, 256⟩
    let r := start.afterExpressions [0]
    ofText [')', 'n'] = .ok start ∧ start.failures [0] = 1 ∧ r.levels = 255 ∧
      r.place.demand 0 ≤ r.levels ∧
      (r.expression 0).1 = ((⟨r.place, maxNesting⟩ : Reader).expression 0).1 := by
  intro start r
  have first : ofText [')', 'n'] = .ok start := by decide +kernel
  have enough : r.place.demand 0 ≤ r.levels := demand_le (by decide +kernel)
  have same := ((expression_after_failures first [0] 0).2.2.1 enough).1
  exact ⟨first, by decide +kernel, by decide +kernel, enough, same⟩

theorem spells_openings (times : Nat) (rest : List Char) :
    Spells (List.replicate times '(' ++ rest) (List.replicate times .opening) rest := by
  induction times with
  | zero => exact Spells.nil
  | succ times ih => exact (spells_opening _).cons ih

/-- Below 255 parentheses a closing one is refused, and then the count for want of a level. -/
theorem expression_refused_after_failure :
    let text := List.replicate 255 '(' ++ [')', 'n']
    let start : Reader :=
      ⟨⟨⟨List.replicate 254 '(' ++ [')', 'n'], 1, false⟩, ⟨.opening, 0⟩⟩, 256⟩
    let r := start.afterExpressions [0]
    (∃ ts, tokens (String.ofList text) = .ok ts) ∧ ofText text = .ok start ∧
      (start.expression 0).1 = .error (.unexpectedToken .operand .closing 255) ∧
      (r.expression 0).1 = .error (.tooDeeplyNested 256) ∧
      ((⟨r.place, maxNesting⟩ : Reader).expression 0).1 = .ok .count := by
  intro text start r
  refine ⟨?_, by decide +kernel, by decide +kernel, by decide +kernel, by decide +kernel⟩
  have spelled : Spells text (List.replicate 255 .opening ++ [.closing, .count]) [] :=
    (spells_openings 255 _).append ((spells_closing _).cons (spells_count []))
  have goes (times : Nat) : .finish ∉ List.replicate times Kind.opening ++ [.closing, .count] := by
    simp [List.mem_replicate]
  obtain ⟨p, q, next, reads, finish⟩ := spelled.exists_reads
  obtain ⟨ts, ok, -⟩ := Place.tokens_eq_ok_iff.2 ⟨p, q, next, reads, finish, goes 255⟩
  exact ⟨ts, by rw [tokens, String.toList_ofList]; exact ok⟩

end Reader
end MessageCatalog.Plural
