import MessageCatalog.Catalog.Cache

/-! Adding and reloading catalogs on a shelf. Without duplicate handles each catalog is reloaded
once, and the order affects neither the shelf nor success. -/
namespace MessageCatalog.Catalog

namespace Shelf

def state? (shelf : Shelf) (h : Handle) : Option State := (shelf.catalog? h).map (·.state)

variable (shelf : Shelf) (s : State) {h k : Handle} (loaded : Except Problem State)

theorem catalog?_add_self : (shelf.add s).1.catalog? (shelf.add s).2 = some (ofState s) := by
  rw [add, catalog?, List.getElem?_append_right (Nat.le_refl _), Nat.sub_self]
  rfl

theorem ne_of_held {c : Catalog} (held : shelf.catalog? h = some c) : h ≠ (shelf.add s).2 :=
  Nat.ne_of_lt (List.getElem?_eq_some_iff.1 held).1

theorem catalog?_add_of_held {c : Catalog} (held : shelf.catalog? h = some c) :
    (shelf.add s).1.catalog? h = some c := by
  rw [add, catalog?, List.getElem?_append_left (List.getElem?_eq_some_iff.1 held).1]
  exact held

@[simp] theorem reload_ok : shelf.reload h (.ok s) = (.ok (), shelf.replace h s) := rfl

@[simp] theorem reload_error {problem : Problem} :
    shelf.reload h (.error problem) = (.error problem, shelf) :=
  congrArg (fun catalogs => (Except.error problem, Shelf.mk catalogs))
    (List.modify_id h shelf.catalogs)

/-- Reloading affects one handle only. -/
theorem catalog?_reload : (shelf.reload h loaded).2.catalog? k =
    if h = k then (shelf.catalog? k).map fun c => (c.reload loaded).2 else shelf.catalog? k := by
  rw [reload, catalog?, List.getElem?_modify]
  by_cases same : h = k
  · simp only [if_pos same, catalog?]
    rfl
  · simp only [if_neg same, catalog?, id_map']

theorem catalog?_reload_of_held {c : Catalog} (held : shelf.catalog? h = some c) :
    (shelf.reload k loaded).2.catalog? h =
      some ((if k = h then loaded.toOption else none).elim c c.replace) := by
  rw [catalog?_reload, held]
  split
  · cases loaded <;> rfl
  · rfl

theorem ext_catalog? {one two : Shelf} (same : ∀ h, one.catalog? h = two.catalog? h) :
    one = two := by
  cases one
  cases two
  exact congrArg mk (List.ext_getElem? same)

end Shelf

namespace Cache

variable {E : Type} [Charset.Encodings E] {c : Cache E} {tree : Files.Tree}
  {locale domain : String} {h : Handle} {pairs : List (String × Handle)} {shelf : Shelf}

/-- The first catalog is reloaded first and does not stop the others. -/
theorem reloadAll_cons_shelf : (c.reloadAll tree locale ((domain, h) :: pairs) shelf).2 =
    (c.reloadAll tree locale pairs (shelf.reload h (c.load tree domain locale)).2).2 := by
  rw [reloadAll]
  cases c.load tree domain locale <;> rfl

theorem reloadAll_cons_ok_iff : (c.reloadAll tree locale ((domain, h) :: pairs) shelf).1 = .ok () ↔
    (∃ s, c.load tree domain locale = .ok s) ∧
      (c.reloadAll tree locale pairs (shelf.reload h (c.load tree domain locale)).2).1 =
        .ok () := by
  rw [reloadAll]
  cases c.load tree domain locale with
  | ok s => simp
  | error problem => simp

theorem catalog?_reloadAll_of_notMem (other : h ∉ pairs.map Prod.snd) :
    (c.reloadAll tree locale pairs shelf).2.catalog? h = shelf.catalog? h := by
  induction pairs generalizing shelf with
  | nil => rfl
  | cons p pairs ih =>
    rw [List.map_cons, List.mem_cons, not_or] at other
    rw [reloadAll_cons_shelf, ih other.2, Shelf.catalog?_reload, if_neg (Ne.symm other.1)]

theorem catalog?_reloadAll_of_mem (distinct : (pairs.map Prod.snd).Nodup)
    (member : (domain, h) ∈ pairs) :
    (c.reloadAll tree locale pairs shelf).2.catalog? h =
      (shelf.catalog? h).map fun k => (k.reload (c.load tree domain locale)).2 := by
  induction pairs generalizing shelf with
  | nil => cases member
  | cons p pairs ih =>
    obtain ⟨absent, distinct⟩ := List.nodup_cons.1 distinct
    rw [reloadAll_cons_shelf]
    rcases List.mem_cons.1 member with rfl | later
    · rw [catalog?_reloadAll_of_notMem absent, Shelf.catalog?_reload, if_pos rfl]
    · have apart : p.2 ≠ h := fun same => absent (same ▸ List.mem_map_of_mem later)
      rw [ih distinct later, Shelf.catalog?_reload, if_neg apart]

theorem held_reloadAll (held : ∃ k, shelf.catalog? h = some k) :
    ∃ k, (c.reloadAll tree locale pairs shelf).2.catalog? h = some k := by
  induction pairs generalizing shelf with
  | nil => exact held
  | cons p pairs ih =>
    obtain ⟨k, held⟩ := held
    rw [reloadAll_cons_shelf]
    exact ih ⟨_, shelf.catalog?_reload_of_held (c.load tree p.1 locale) held⟩

/-- A change succeeds exactly when every domain loads for the locale. -/
theorem reloadAll_ok_iff : (c.reloadAll tree locale pairs shelf).1 = .ok () ↔
    ∀ p ∈ pairs, ∃ s, c.load tree p.1 locale = .ok s := by
  induction pairs generalizing shelf with
  | nil => simp [reloadAll]
  | cons p pairs ih => rw [reloadAll_cons_ok_iff, ih, List.forall_mem_cons]

/-- A failed change reports the problem of some domain that does not load. -/
theorem exists_of_reloadAll_error {problem : Problem}
    (failed : (c.reloadAll tree locale pairs shelf).1 = .error problem) :
    ∃ p ∈ pairs, c.load tree p.1 locale = .error problem := by
  induction pairs generalizing shelf with
  | nil => cases failed
  | cons p pairs ih =>
    rw [reloadAll] at failed
    cases loading : c.load tree p.1 locale with
    | error first =>
      simp only [loading, Shelf.reload_error] at failed
      cases failed
      exact ⟨p, List.mem_cons_self, loading⟩
    | ok s =>
      simp only [loading, Shelf.reload_ok] at failed
      obtain ⟨later, member, fails⟩ := ih failed
      exact ⟨later, List.mem_cons_of_mem p member, fails⟩

/-- The order of the reloads does not show on the shelf. -/
theorem reloadAll_perm {order : List (String × Handle)} (distinct : (pairs.map Prod.snd).Nodup)
    (perm : order.Perm pairs) :
    (c.reloadAll tree locale order shelf).2 = (c.reloadAll tree locale pairs shelf).2 := by
  have handles : (order.map Prod.snd).Perm (pairs.map Prod.snd) := perm.map Prod.snd
  apply Shelf.ext_catalog?
  intro h
  by_cases listed : h ∈ pairs.map Prod.snd
  · obtain ⟨p, member, rfl⟩ := List.mem_map.1 listed
    rw [catalog?_reloadAll_of_mem distinct member,
      catalog?_reloadAll_of_mem (handles.nodup_iff.2 distinct) (perm.mem_iff.2 member)]
  · rw [catalog?_reloadAll_of_notMem listed,
      catalog?_reloadAll_of_notMem (mt handles.mem_iff.1 listed)]

end Cache
end MessageCatalog.Catalog
