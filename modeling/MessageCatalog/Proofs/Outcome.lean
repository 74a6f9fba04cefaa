/-! Outcomes of steps that can fail, taken apart: a sequence gives a value only if each of its steps
does. -/
namespace MessageCatalog

variable {ε α β : Type} {x : Except ε α} {f : α → Except ε β}

theorem bind_ok {b : β} (h : (x >>= f) = .ok b) : ∃ a, x = .ok a ∧ f a = .ok b := by
  cases x with
  | error cause => cases h
  | ok a => exact ⟨a, rfl, h⟩

theorem bind_of_ok {a : α} (h : x = .ok a) : (x >>= f) = f a := by
  subst h
  rfl

theorem bind_of_error {cause : ε} (h : x = .error cause) : (x >>= f) = .error cause := by
  subst h
  rfl

/-- Steps over a list that can fail in one way only: all values, or that failure. -/
theorem mapM_guarded {p : α → Prop} [DecidablePred p] (g : α → β) (cause : ε) (xs : List α) :
    (xs.mapM fun x => if p x then Except.ok (g x) else .error cause) =
      if ∀ x ∈ xs, p x then .ok (xs.map g) else .error cause := by
  induction xs with
  | nil => rw [if_pos (by simp)]; rfl
  | cons x xs ih =>
    rw [List.mapM_cons]
    by_cases first : p x
    · rw [bind_of_ok (if_pos first), ih]
      by_cases others : ∀ y ∈ xs, p y
      · rw [if_pos others, if_pos (List.forall_mem_cons.2 ⟨first, others⟩)]
        rfl
      · rw [if_neg others, if_neg fun all => others (List.forall_mem_cons.1 all).2]
        rfl
    · rw [bind_of_error (if_neg first), if_neg fun all => first (List.forall_mem_cons.1 all).1]

end MessageCatalog
