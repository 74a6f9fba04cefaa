import MessageCatalog.Table

/-! Look-ups after inserting many pairs. -/
namespace MessageCatalog.Table

variable {α : Type} {t : Table α} {pairs : List (String × α)} {key : String}

theorem find?_insertAll_of_notMem (absent : key ∉ pairs.map Prod.fst) :
    (t.insertAll pairs).find? key = t.find? key := by
  induction pairs generalizing t with
  | nil => rfl
  | cons p pairs ih =>
    rw [List.map_cons, List.mem_cons, not_or] at absent
    obtain ⟨other, absent⟩ := absent
    exact (ih absent).trans (by rw [find?_insert, if_neg other])

/-- What is found was inserted, or was there before. -/
theorem mem_of_find?_insertAll {value : α} (found : (t.insertAll pairs).find? key = some value) :
    (key, value) ∈ pairs ∨ t.find? key = some value := by
  induction pairs generalizing t with
  | nil => exact .inr found
  | cons p pairs ih =>
    rcases ih found with later | before
    · exact .inl (List.mem_cons_of_mem p later)
    · rw [find?_insert] at before
      split at before
      · next same =>
        cases before
        exact .inl (same ▸ List.mem_cons_self)
      · exact .inr before

theorem find?_insertAll_of_mem {value : α} (distinct : (pairs.map Prod.fst).Nodup)
    (member : (key, value) ∈ pairs) : (t.insertAll pairs).find? key = some value := by
  induction pairs generalizing t with
  | nil => cases member
  | cons p pairs ih =>
    obtain ⟨absent, distinct⟩ := List.nodup_cons.1 distinct
    rcases List.mem_cons.1 member with rfl | later
    · exact (find?_insertAll_of_notMem absent).trans (by rw [find?_insert, if_pos rfl])
    · exact ih distinct later

theorem nodup_entries (t : Table α) : t.entries.Nodup := by
  refine List.Pairwise.imp ?_ t.sorted
  rintro a b less rfl
  exact String.lt_irrefl a.1 less

/-- Pairs with distinct keys are the entries of their table, up to order. -/
theorem entries_insertAll_perm (distinct : (pairs.map Prod.fst).Nodup) :
    (empty.insertAll pairs).entries.Perm pairs := by
  have apart : pairs.Nodup :=
    List.Pairwise.of_map Prod.fst (fun _ _ => mt (congrArg Prod.fst)) distinct
  refine (List.perm_ext_iff_of_nodup (nodup_entries _) apart).2 fun pair => ?_
  have entered : (empty.insertAll pairs).find? pair.1 = some pair.2 ↔
      pair ∈ (empty.insertAll pairs).entries := find?_eq_some_iff
  rw [← entered]
  constructor
  · intro found
    exact (mem_of_find?_insertAll found).resolve_right (by simp)
  · exact find?_insertAll_of_mem distinct

/-- Tables are determined by their pairs. -/
theorem eq_of_entries_perm {a b : Table α} (same : a.entries.Perm b.entries) : a = b := by
  have equal : a.entries = b.entries :=
    same.eq_of_pairwise (fun x y _ _ xy yx => (String.lt_asymm xy yx).elim) a.sorted b.sorted
  cases a
  cases b
  exact (mk.injEq ..).mpr equal

section Last

variable {before after : List (String × α)} {value : α}

/-- The last pair with a key is found. -/
theorem find?_insertAll_last (absent : key ∉ after.map Prod.fst) :
    (t.insertAll (before ++ (key, value) :: after)).find? key = some value := by
  rw [insertAll, List.foldl_append, List.foldl_cons]
  exact (find?_insertAll_of_notMem absent).trans (by rw [find?_insert, if_pos rfl])

theorem exists_last (member : key ∈ pairs.map Prod.fst) :
    ∃ before value after, pairs = before ++ (key, value) :: after ∧ key ∉ after.map Prod.fst := by
  induction pairs with
  | nil => cases member
  | cons p pairs ih =>
    by_cases later : key ∈ pairs.map Prod.fst
    · obtain ⟨before, value, after, rfl, absent⟩ := ih later
      exact ⟨p :: before, value, after, rfl, absent⟩
    · rw [List.map_cons, List.mem_cons] at member
      obtain rfl := member.resolve_right later
      exact ⟨[], p.2, pairs, rfl, later⟩

theorem find?_insertAll_eq_some_iff :
    (empty.insertAll pairs).find? key = some value ↔
      ∃ before after, pairs = before ++ (key, value) :: after ∧ key ∉ after.map Prod.fst := by
  constructor
  · intro found
    have member : (key, value) ∈ pairs := (mem_of_find?_insertAll found).resolve_right (by simp)
    obtain ⟨before, last, after, rfl, absent⟩ := exists_last (List.mem_map_of_mem member)
    have same : last = value := Option.some.inj ((find?_insertAll_last absent).symm.trans found)
    exact ⟨before, after, same ▸ rfl, absent⟩
  · rintro ⟨before, after, rfl, absent⟩
    exact find?_insertAll_last absent

end Last

end MessageCatalog.Table
