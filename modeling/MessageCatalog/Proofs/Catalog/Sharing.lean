import MessageCatalog.Proofs.Catalog.CacheRuns

/-! Sharing of cached catalogs. A cached handle is one returned since the last reset; detached
catalogs stay on the shelf unchanged and are never returned again. -/
namespace MessageCatalog.Catalog

open Charset Files

def WithoutReset (steps : List (Tree × Call)) : Prop := ∀ step ∈ steps, step.2 ≠ .reset

theorem withoutReset_concat_iff {steps : List (Tree × Call)} {tree : Tree} {call : Call} :
    WithoutReset (steps ++ [(tree, call)]) ↔ WithoutReset steps ∧ call ≠ .reset := by
  simp only [WithoutReset, List.forall_mem_append, List.forall_mem_singleton]

namespace Cache

variable {E : Type}

/-- Catalogs unchanged and no longer cached. -/
structure Detached (old : Shelf) (c : Cache E) : Prop where
  kept : ∀ h k, old.catalog? h = some k → c.shelf.catalog? h = some k
  uncached : ∀ domain h, c.domains.find? domain = some h → old.catalog? h = none

section Keeping

variable {c : Cache E} {domain : String}

theorem contains_iff : c.contains domain = true ↔ ∃ h, c.domains.find? domain = some h :=
  Option.isSome_iff_exists

theorem detached_reset {old : Shelf}
    (kept : ∀ h k, old.catalog? h = some k → c.shelf.catalog? h = some k) :
    Detached old c.reset where
  kept := kept
  uncached := by
    intro asked h found
    cases found

theorem Detached.keep {old : Shelf} (detached : Detached old c) {s : State} :
    Detached old (c.keep domain s) where
  kept := by
    intro h k held
    exact c.shelf.catalog?_add_of_held s (detached.kept h k held)
  uncached := by
    intro asked h found
    rcases find?_keep found with ⟨-, rfl⟩ | before
    · cases held : old.catalog? (c.shelf.add s).2 with
      | none => rfl
      | some k => exact (c.shelf.ne_of_held s (detached.kept _ k held) rfl).elim
    · exact detached.uncached asked h before

end Keeping

variable [Encodings E]

/-- Some call since the last reset returned the handle. -/
def Gave (c : Cache E) (domain : String) (h : Handle) (steps : List (Tree × Call)) : Prop :=
  ∃ before tree since, steps = before ++ (tree, .get domain) :: since ∧
    ((c.run before).2.get tree domain).1 = .ok h ∧ WithoutReset since

section Steps

variable {c : Cache E} {tree : Tree} {domain other : String} {h : Handle}

theorem get_of_found (found : c.domains.find? domain = some h) :
    c.get tree domain = (.ok h, c) := by
  simp only [get, found]

theorem find?_get_iff : (c.get tree domain).2.domains.find? other = some h ↔
    domain = other ∧ (c.get tree domain).1 = .ok h ∨ c.domains.find? other = some h := by
  have got := got_get c tree domain
  generalize c.get tree domain = result at got ⊢
  cases got with
  | cached found =>
    constructor
    · exact .inr
    · rintro (⟨rfl, same⟩ | before)
      · cases same
        exact found
      · exact before
  | failed absent loading => simp
  | loaded absent loading =>
    by_cases same : other = domain
    · subst same
      simp [keep, absent]
    · simp [keep, same, Ne.symm same]

/-- A cached handle was just returned, or was cached before. -/
theorem find?_perform_iff {call : Call} :
    (c.perform tree call).2.domains.find? domain = some h ↔
      call = .get domain ∧ (c.get tree domain).1 = .ok h ∨
        call ≠ .reset ∧ c.domains.find? domain = some h := by
  cases call with
  | get asked =>
    refine find?_get_iff.trans ?_
    by_cases same : asked = domain
    · simp [same]
    · simp [same]
  | setLocale locale => simp [perform, setLocale]
  | reset => simp [perform, reset]
  | contains asked => simp [perform]

theorem get_of_error {problem : Problem} (failed : (c.get tree domain).1 = .error problem) :
    (c.get tree domain).2 = c := by
  have got := got_get c tree domain
  generalize c.get tree domain = result at got failed ⊢
  cases got with
  | cached found => rfl
  | failed absent loading => rfl
  | loaded absent loading => cases failed

/-- An invariant of caching one more catalog, changing the locale and resetting holds after a
call. -/
theorem perform_invariant {P : Cache E → Prop} (current : P c) (keep : ∀ domain s, P (c.keep domain s))
    (switch : ∀ locale, P (c.setLocale tree locale).2) (forget : P c.reset) (call : Call) :
    P (c.perform tree call).2 := by
  cases call with
  | get asked =>
    have got := got_get c tree asked
    rw [perform]
    generalize c.get tree asked = result at got ⊢
    cases got with
    | cached found => exact current
    | failed absent loading => exact current
    | loaded absent loading => exact keep asked _
  | setLocale locale => exact switch locale
  | reset => exact forget
  | contains asked => exact current

theorem held_perform (held : ∃ k, c.shelf.catalog? h = some k) (call : Call) :
    ∃ k, (c.perform tree call).2.shelf.catalog? h = some k := by
  refine perform_invariant (P := fun c => ∃ k, c.shelf.catalog? h = some k) held ?_ ?_ held call
  · intro asked s
    obtain ⟨k, held⟩ := held
    exact ⟨k, c.shelf.catalog?_add_of_held s held⟩
  · intro locale
    exact held_reloadAll held

theorem Detached.setLocale {old : Shelf} (detached : Detached old c) {locale : String} :
    Detached old (c.setLocale tree locale).2 where
  kept := by
    intro h k held
    have notMem : h ∉ c.domains.entries.map Prod.snd := by
      intro member
      obtain ⟨p, listed, rfl⟩ := List.mem_map.1 member
      have free := detached.uncached p.1 p.2 (Table.find?_eq_some_iff.2 listed)
      cases free.symm.trans held
    exact (catalog?_reloadAll_of_notMem notMem).trans (detached.kept h k held)
  uncached := detached.uncached

theorem Detached.perform {old : Shelf} (detached : Detached old c) (call : Call) :
    Detached old (c.perform tree call).2 :=
  perform_invariant detached (fun _ _ => detached.keep) (fun _ => detached.setLocale)
    (detached_reset detached.kept) call

theorem held_of_get (kept : WellKept c) (got : (c.get tree domain).1 = .ok h) :
    ∃ k, (c.get tree domain).2.shelf.catalog? h = some k :=
  kept.get.held domain h (find?_get_iff.2 (.inl ⟨rfl, got⟩))

end Steps

section Runs

variable {c : Cache E} {tree later : Tree} {domain : String} {h k : Handle}
  {steps : List (Tree × Call)}

theorem run_append (c : Cache E) (steps later : List (Tree × Call)) :
    (c.run (steps ++ later)).2 = ((c.run steps).2.run later).2 := by
  induction steps generalizing c with
  | nil => rfl
  | cons step steps ih => exact ih _

theorem held_run (held : ∃ k, c.shelf.catalog? h = some k) (steps : List (Tree × Call)) :
    ∃ k, (c.run steps).2.shelf.catalog? h = some k := by
  induction steps generalizing c with
  | nil => exact held
  | cons step steps ih => exact ih (held_perform held step.2)

theorem Detached.run {old : Shelf} (detached : Detached old c) (steps : List (Tree × Call)) :
    Detached old (c.run steps).2 := by
  induction steps generalizing c with
  | nil => exact detached
  | cons step steps ih => exact ih (detached.perform step.2)

theorem find?_run_of_withoutReset (found : c.domains.find? domain = some h)
    (stays : WithoutReset steps) : (c.run steps).2.domains.find? domain = some h := by
  induction steps generalizing c with
  | nil => exact found
  | cons step steps ih =>
    obtain ⟨first, rest⟩ := List.forall_mem_cons.1 stays
    exact ih (find?_perform_iff.2 (.inr ⟨first, found⟩)) rest

theorem gave_concat_iff {call : Call} : c.Gave domain h (steps ++ [(tree, call)]) ↔
    call = .get domain ∧ ((c.run steps).2.get tree domain).1 = .ok h ∨
      call ≠ .reset ∧ c.Gave domain h steps := by
  constructor
  · rintro ⟨before, earlier, since, split, gave, stays⟩
    rcases since.eq_nil_or_concat with rfl | ⟨since, last, rfl⟩
    · obtain ⟨rfl, same⟩ := List.append_inj' split rfl
      cases same
      exact .inl ⟨rfl, gave⟩
    · rw [List.concat_eq_append, ← List.cons_append, ← List.append_assoc] at split
      obtain ⟨rfl, same⟩ := List.append_inj' split rfl
      cases same
      rw [List.concat_eq_append, withoutReset_concat_iff] at stays
      exact .inr ⟨stays.2, before, earlier, since, rfl, gave, stays.1⟩
  · rintro (⟨rfl, gave⟩ | ⟨other, before, earlier, since, rfl, gave, stays⟩)
    · exact ⟨steps, tree, [], rfl, gave, nofun⟩
    · refine ⟨before, earlier, since ++ [(tree, call)], by simp, gave, ?_⟩
      exact withoutReset_concat_iff.2 ⟨stays, other⟩

/-- From an empty cache, cached handles are those returned since the last reset. -/
theorem find?_run_iff (bare : ∀ domain, c.domains.find? domain = none) :
    (c.run steps).2.domains.find? domain = some h ↔ c.Gave domain h steps := by
  induction steps using List.reverseRecOn with
  | nil => simp [run, bare, Gave]
  | append_singleton steps step ih =>
    obtain ⟨tree, call⟩ := step
    rw [run_concat, gave_concat_iff, ← ih]
    exact find?_perform_iff

/-- Returned handles stay on the shelf. -/
theorem held_of_answer (kept : WellKept c) (given : .catalog (.ok h) ∈ (c.run steps).1) :
    ∃ k, (c.run steps).2.shelf.catalog? h = some k := by
  induction steps generalizing c with
  | nil => cases given
  | cons step steps ih =>
    obtain ⟨tree, call⟩ := step
    rcases List.mem_cons.1 given with first | rest
    · cases call with
      | get asked => exact held_run (held_of_get kept (Answer.catalog.inj first).symm) steps
      | setLocale locale => cases first
      | reset => cases first
      | contains asked => cases first
    · exact ih (kept.perform call) rest

/-- Two calls return the same catalog exactly when no reset came between them. -/
theorem same_handle_iff (kept : WellKept c) (first : (c.get tree domain).1 = .ok h)
    (second : (((c.get tree domain).2.run steps).2.get later domain).1 = .ok k) :
    h = k ↔ WithoutReset steps := by
  have cached : (c.get tree domain).2.domains.find? domain = some h :=
    find?_get_iff.2 (.inl ⟨rfl, first⟩)
  constructor
  · rintro rfl ⟨earlier, call⟩ member (rfl : call = .reset)
    obtain ⟨before, since, rfl⟩ := List.append_of_mem member
    rw [run_append] at second
    -- The handle of the first call was in use at the reset, so no later call gives it.
    let cleared := ((c.get tree domain).2.run before).2
    obtain ⟨k, held⟩ := held_run (held_of_get kept first) before
    have detached : Detached cleared.shelf ((cleared.reset.run since).2.get later domain).2 :=
      ((detached_reset fun _ _ held => held).run since).perform (.get domain)
    have free := detached.uncached domain h (find?_get_iff.2 (.inl ⟨rfl, second⟩))
    cases free.symm.trans held
  · intro stays
    rw [get_of_found (find?_run_of_withoutReset cached stays)] at second
    exact Except.ok.inj second

end Runs

end Cache

/-- For every run, and all calls after it. -/
theorem shared_until_reset {E : Type} [Encodings E] (dirs : List Path) (locale : String)
    (options : LoadOptions E) (steps : List (Tree × Call)) :
    let start := Cache.empty dirs locale options
    let c := (start.run steps).2
    (∀ tree domain middle later h k, (c.get tree domain).1 = .ok h →
      (((c.get tree domain).2.run middle).2.get later domain).1 = .ok k →
      (h = k ↔ WithoutReset middle)) ∧
    (∀ tree domain problem, (c.get tree domain).1 = .error problem →
      (c.get tree domain).2 = c) ∧
    (∀ domain, c.contains domain = true ↔ ∃ h, start.Gave domain h steps) ∧
    ∀ h, .catalog (.ok h) ∈ (start.run steps).1 →
      ∃ k, c.shelf.catalog? h = some k ∧
        ∀ since, (c.reset.run since).2.shelf.catalog? h = some k := by
  intro start c
  have kept : Cache.WellKept c := (Cache.wellKept_empty dirs locale options).run steps
  refine ⟨?_, ?_, ?_, ?_⟩
  · intro tree domain middle later h k first second
    exact Cache.same_handle_iff kept first second
  · intro tree domain problem failed
    exact Cache.get_of_error failed
  · intro domain
    have bare (asked : String) : start.domains.find? asked = none := rfl
    simp only [Cache.contains_iff, c, Cache.find?_run_iff bare]
  · intro h given
    obtain ⟨k, held⟩ := Cache.held_of_answer (Cache.wellKept_empty dirs locale options) given
    refine ⟨k, held, fun since => ?_⟩
    have detached : Cache.Detached c.shelf (c.reset.run since).2 :=
      (Cache.detached_reset fun _ _ held => held).run since
    exact detached.kept h k held

/-- A failed switch keeps catalogs shared, a reset does not. -/
theorem shared_until_reset_greetings :
    let c := ((Cache.empty [⟨"/l"⟩] "de" Cyrillic.options).run [(greetings, .get "app")]).2
    let switched := ((c.get greetings "app").2.run [(greetings, .setLocale "it")]).2
    let cleared := ((c.get greetings "app").2.run [(greetings, .reset)]).2
    c.contains "app" = true ∧
      (∃ h, (switched.get Tree.empty "app").1 = .ok h ∧ 0 = h) ∧
      (∃ h, (cleared.get Tree.empty "app").1 = .ok h ∧ 0 ≠ h) ∧
      ∃ k, c.shelf.catalog? 0 = some k ∧
        (c.reset.run [(greetings, .setLocale "it")]).2.shelf.catalog? 0 = some k := by
  intro c switched cleared
  have first : (c.get greetings "app").1 = .ok 0 := by decide +kernel
  have second : (switched.get Tree.empty "app").1 = .ok 0 := by decide +kernel
  have third : (cleared.get Tree.empty "app").1 = .ok 1 := by decide +kernel
  have given : ((Cache.empty [⟨"/l"⟩] "de" Cyrillic.options).get greetings "app").1 = .ok 0 := by
    decide +kernel
  obtain ⟨shared, -, known, apart⟩ :=
    shared_until_reset [⟨"/l"⟩] "de" Cyrillic.options [(greetings, .get "app")]
  refine ⟨?_, ⟨0, second, ?_⟩, ⟨1, third, ?_⟩, ?_⟩
  · exact (known "app").2 ⟨0, [], greetings, [], rfl, given, nofun⟩
  · refine (shared greetings "app" _ Tree.empty 0 0 first second).2 ?_
    simp [WithoutReset]
  · intro same
    have stays := (shared greetings "app" _ Tree.empty 0 1 first third).1 same
    exact stays (greetings, .reset) (by simp) rfl
  · obtain ⟨k, held, unchanged⟩ := apart 0 (by simp [Cache.run, Cache.perform, given])
    exact ⟨k, held, unchanged [(greetings, .setLocale "it")]⟩

end MessageCatalog.Catalog
