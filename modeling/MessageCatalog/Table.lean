/-! Finite maps from strings, sorted strictly by key, so that tables with equal look-ups are
equal. -/
namespace MessageCatalog

def insertSorted {α : Type} (key : String) (value : α) :
    List (String × α) → List (String × α)
  | [] => [(key, value)]
  | (k, v) :: rest =>
    if key < k then (key, value) :: (k, v) :: rest
    else if key = k then (key, value) :: rest
    else (k, v) :: insertSorted key value rest

def lookupSorted {α : Type} (key : String) : List (String × α) → Option α
  | [] => none
  | (k, v) :: rest => if key = k then some v else lookupSorted key rest

def StrictlySorted {α : Type} (entries : List (String × α)) : Prop :=
  entries.Pairwise fun a b => a.1 < b.1

theorem mem_insertSorted {α : Type} {key : String} {value : α} {a : String × α}
    {entries : List (String × α)} (h : a ∈ insertSorted key value entries) :
    a = (key, value) ∨ a ∈ entries := by
  induction entries with
  | nil => simpa [insertSorted] using h
  | cons head rest ih =>
    rw [insertSorted] at h
    split at h
    · simpa using h
    · split at h
      · rcases List.mem_cons.1 h with h | h
        · exact .inl h
        · exact .inr (List.mem_cons_of_mem _ h)
      · rcases List.mem_cons.1 h with h | h
        · exact .inr (h ▸ List.mem_cons_self)
        · exact (ih h).imp_right (List.mem_cons_of_mem _)

theorem strictlySorted_insertSorted {α : Type} (key : String) (value : α)
    {entries : List (String × α)} (h : StrictlySorted entries) :
    StrictlySorted (insertSorted key value entries) := by
  induction entries with
  | nil => simp [insertSorted, StrictlySorted]
  | cons head rest ih =>
    obtain ⟨before, sorted⟩ := List.pairwise_cons.1 h
    rw [insertSorted]
    split
    · next less =>
      refine List.pairwise_cons.2 ⟨fun a ha => ?_, h⟩
      rcases List.mem_cons.1 ha with rfl | ha
      · exact less
      · exact String.lt_trans less (before a ha)
    · next less =>
      split
      · next same => subst same; exact List.pairwise_cons.2 ⟨before, sorted⟩
      · next other =>
        refine List.pairwise_cons.2 ⟨fun a ha => ?_, ih sorted⟩
        rcases mem_insertSorted ha with rfl | ha
        · exact Std.lt_of_le_of_ne (String.not_lt.1 less) (Ne.symm other)
        · exact before a ha

theorem lookupSorted_insertSorted {α : Type} (key other : String) (value : α)
    (entries : List (String × α)) :
    lookupSorted other (insertSorted key value entries) =
      if other = key then some value else lookupSorted other entries := by
  induction entries with
  | nil => simp [insertSorted, lookupSorted]
  | cons head rest ih =>
    rw [insertSorted]
    split
    · simp [lookupSorted]
    · split
      · next same => subst same; by_cases h : other = head.1 <;> simp [lookupSorted, h]
      · next other' =>
        by_cases h : other = head.1
        · subst h; simp [lookupSorted, Ne.symm other']
        · simp [lookupSorted, h, ih]

theorem lookupSorted_eq_some_iff {α : Type} {entries : List (String × α)}
    (h : StrictlySorted entries) {key : String} {value : α} :
    lookupSorted key entries = some value ↔ (key, value) ∈ entries := by
  induction entries with
  | nil => simp [lookupSorted]
  | cons head rest ih =>
    obtain ⟨before, sorted⟩ := List.pairwise_cons.1 h
    obtain ⟨k, v⟩ := head
    by_cases same : key = k
    · subst same
      have : (key, value) ∉ rest := fun m => String.lt_irrefl key (before (key, value) m)
      simp [lookupSorted, this, eq_comm]
    · simp [lookupSorted, same, ih sorted]

structure Table (α : Type) where
  entries : List (String × α)
  sorted : StrictlySorted entries
  deriving DecidableEq

namespace Table

variable {α : Type}

def empty : Table α := ⟨[], List.Pairwise.nil⟩

instance : EmptyCollection (Table α) := ⟨empty⟩

def find? (t : Table α) (key : String) : Option α := lookupSorted key t.entries

/-- Replaces an earlier value. -/
def insert (t : Table α) (key : String) (value : α) : Table α :=
  ⟨insertSorted key value t.entries, strictlySorted_insertSorted key value t.sorted⟩

def contains (t : Table α) (key : String) : Bool := (t.find? key).isSome

def size (t : Table α) : Nat := t.entries.length

def isEmpty (t : Table α) : Bool := t.entries.isEmpty

def insertAll (t : Table α) (pairs : List (String × α)) : Table α :=
  pairs.foldl (fun t p => t.insert p.1 p.2) t

@[simp] theorem find?_empty (key : String) : (empty : Table α).find? key = none := rfl

@[simp] theorem find?_insert (t : Table α) (key other : String) (value : α) :
    (t.insert key value).find? other = if other = key then some value else t.find? other :=
  lookupSorted_insertSorted key other value t.entries

theorem find?_eq_some_iff {t : Table α} {key : String} {value : α} :
    t.find? key = some value ↔ (key, value) ∈ t.entries :=
  lookupSorted_eq_some_iff t.sorted

end Table
end MessageCatalog
