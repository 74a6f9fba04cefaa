import MessageCatalog.Proofs.Catalog.CacheRuns
import MessageCatalog.Proofs.Catalog.Exchanges

/-! A change of locale treats cached domains independently: a domain that does not load keeps its
catalog, the others show their loads, and all keep their handles. The order affects only which
failure is reported. -/
namespace MessageCatalog.Catalog

open Charset Files

variable {E : Type} [Encodings E]

namespace Cache

/-- Reachable by calls, with catalogs reloaded and replaced in between. -/
inductive Reached (dirs : List Path) (options : LoadOptions E) : Cache E → Prop
  | opened (locale : String) : Reached dirs options (empty dirs locale options)
  | called {c : Cache E} (tree : Tree) (call : Call) (before : Reached dirs options c) :
      Reached dirs options (c.perform tree call).2
  | asked {c : Cache E} (request : Request E) (before : Reached dirs options c) :
      Reached dirs options { c with shelf := (c.shelf.perform request).2 }

/-- Switches domains in the order of a list. -/
def setLocaleInOrder (c : Cache E) (order : List (String × Handle)) (tree : Tree)
    (locale : String) : Except Problem Unit × Cache E :=
  let (result, shelf) := c.reloadAll tree locale order c.shelf
  (result, { c with locale := locale, shelf := shelf })

/-- The outcome of a locale change, given the load of each domain. -/
structure Switched (c : Cache E) (locale : String) (fresh : String → Except Problem State)
    (result : Except Problem Unit) (after : Cache E) : Prop where
  locale_eq : after.locale = locale
  domains_eq : after.domains = c.domains
  dirs_eq : after.dirs = c.dirs
  options_eq : after.options = c.options
  kept : ∀ domain h problem, c.domains.find? domain = some h → fresh domain = .error problem →
    after.shelf.catalog? h = c.shelf.catalog? h
  renewed : ∀ domain h s, c.domains.find? domain = some h → fresh domain = .ok s →
    ∃ k, c.shelf.catalog? h = some k ∧ after.shelf.catalog? h = some (k.replace s)
  uncached : ∀ h, (∀ domain, c.domains.find? domain ≠ some h) →
    after.shelf.catalog? h = c.shelf.catalog? h
  ok_iff : result = .ok () ↔ ∀ domain h, c.domains.find? domain = some h → ∃ s, fresh domain = .ok s
  blamed : ∀ problem, result = .error problem →
    ∃ domain h, c.domains.find? domain = some h ∧ fresh domain = .error problem

section Steps

variable {dirs : List Path} {options : LoadOptions E} {c : Cache E} {tree : Tree} {locale : String}
  {order : List (String × Handle)}

theorem WellKept.asked (kept : WellKept c) (request : Request E) :
    WellKept { c with shelf := (c.shelf.perform request).2 } where
  held := by
    intro domain h found
    obtain ⟨k, held⟩ := kept.held domain h found
    exact ⟨_, Shelf.catalog?_perform held request⟩
  apart := kept.apart

theorem Reached.wellKept (reached : Reached dirs options c) : WellKept c := by
  induction reached with
  | opened locale => exact wellKept_empty dirs locale options
  | called tree call before ih => exact ih.perform call
  | asked request before ih => exact ih.asked request

theorem Reached.settings (reached : Reached dirs options c) :
    c.dirs = dirs ∧ c.options = options := by
  induction reached with
  | opened locale => exact ⟨rfl, rfl⟩
  | @called c tree call before ih =>
    obtain ⟨sameDirs, sameOptions⟩ := c.perform_frame tree call
    exact ⟨sameDirs.trans ih.1, sameOptions.trans ih.2⟩
  | asked request before ih => exact ih

theorem setLocale_eq (c : Cache E) (tree : Tree) (locale : String) :
    c.setLocale tree locale = c.setLocaleInOrder c.domains.entries tree locale :=
  rfl

/-- Every order of the reloads leads to the same cache. -/
theorem WellKept.setLocaleInOrder_snd (kept : WellKept c)
    (perm : order.Perm c.domains.entries) :
    (c.setLocaleInOrder order tree locale).2 = (c.setLocale tree locale).2 := by
  have shelves : (c.reloadAll tree locale order c.shelf).2 =
      (c.reloadAll tree locale c.domains.entries c.shelf).2 :=
    reloadAll_perm kept.handles_nodup perm
  simp only [setLocale_eq, setLocaleInOrder, shelves]

theorem WellKept.switched (kept : WellKept c) (perm : order.Perm c.domains.entries) :
    Switched c locale (c.load tree · locale) (c.setLocaleInOrder order tree locale).1
      (c.setLocaleInOrder order tree locale).2 := by
  have listed {domain : String} {h : Handle} :
      c.domains.find? domain = some h ↔ (domain, h) ∈ order :=
    Table.find?_eq_some_iff.trans perm.mem_iff.symm
  have reloaded {domain : String} {h : Handle} (found : c.domains.find? domain = some h) :
      (c.setLocaleInOrder order tree locale).2.shelf.catalog? h =
        (c.shelf.catalog? h).map fun k => (k.reload (c.load tree domain locale)).2 := by
    rw [kept.setLocaleInOrder_snd perm, kept.catalog?_setLocale found]
  refine ⟨rfl, rfl, rfl, rfl, ?_, ?_, ?_, ?_, ?_⟩
  · intro domain h problem found failed
    simp [reloaded found, failed, reload]
  · intro domain h s found loading
    obtain ⟨k, held⟩ := kept.held domain h found
    refine ⟨k, held, ?_⟩
    simp [reloaded found, held, loading, reload]
  · intro h free
    apply catalog?_reloadAll_of_notMem
    intro member
    obtain ⟨p, inside, rfl⟩ := List.mem_map.1 member
    exact free p.1 (listed.2 inside)
  · refine reloadAll_ok_iff.trans ?_
    simp only [listed, Prod.forall]
  · intro problem failed
    obtain ⟨p, inside, fails⟩ := exists_of_reloadAll_error failed
    exact ⟨p.1, p.2, listed.2 inside, fails⟩

end Steps

end Cache

/-- For every reachable cache, every tree at the time of the change, and every order. -/
theorem domains_switched_apart (dirs : List Path) (options : LoadOptions E) (c : Cache E)
    (reached : Cache.Reached dirs options c) (tree : Tree) (locale : String) :
    let fresh (domain : String) := State.load options tree dirs domain locale
    let switch := c.setLocale tree locale
    Cache.Switched c locale fresh switch.1 switch.2 ∧
      ∀ order, order.Perm c.domains.entries →
        let other := c.setLocaleInOrder order tree locale
        Cache.Switched c locale fresh other.1 other.2 ∧ other.2 = switch.2 := by
  intro fresh switch
  have kept := reached.wellKept
  obtain ⟨sameDirs, sameOptions⟩ := reached.settings
  have loads : (c.load tree · locale) = fresh := by
    funext domain
    simp only [Cache.load, sameDirs, sameOptions, fresh]
  have ordered (order : List (String × Handle)) (perm : order.Perm c.domains.entries) :
      Cache.Switched c locale fresh (c.setLocaleInOrder order tree locale).1
        (c.setLocaleInOrder order tree locale).2 := by
    rw [← loads]
    exact kept.switched perm
  refine ⟨ordered c.domains.entries (List.Perm.refl _), fun order perm => ?_⟩
  exact ⟨ordered order perm, kept.setLocaleInOrder_snd perm⟩

def twoDomains : Cache Cyrillic :=
  let german := (Cache.empty [⟨"/l"⟩] "de" Cyrillic.options).perform greetings (.get "app")
  (german.2.perform greetings (.get "shop")).2

/-- The Italian file is unreadable; the other domain still switches, in either order. -/
theorem domains_switched_apart_greetings :
    Cache.Reached [⟨"/l"⟩] Cyrillic.options twoDomains ∧
      let after := (twoDomains.setLocale greetings "it").2
      (twoDomains.setLocale greetings "it").1 = .error .endOfData ∧ after.locale = "it" ∧
        after.shelf.catalog? 0 = twoDomains.shelf.catalog? 0 ∧
        after.shelf.state? 1 = some ((State.empty "it").warn (.missingFile "shop" "it")) ∧
        (twoDomains.setLocaleInOrder [("shop", 1), ("app", 0)] greetings "it").2 = after := by
  have reached : Cache.Reached [⟨"/l"⟩] Cyrillic.options twoDomains :=
    .called greetings (.get "shop") (.called greetings (.get "app") (.opened "de"))
  have cached : twoDomains.domains.entries = [("app", 0), ("shop", 1)] := by decide +kernel
  obtain ⟨switched, ordered⟩ :=
    domains_switched_apart [⟨"/l"⟩] Cyrillic.options twoDomains reached greetings "it"
  have app : twoDomains.domains.find? "app" = some 0 := Table.find?_eq_some_iff.2 (by simp [cached])
  have shop : twoDomains.domains.find? "shop" = some 1 :=
    Table.find?_eq_some_iff.2 (by simp [cached])
  have broken : State.load Cyrillic.options greetings [⟨"/l"⟩] "app" "it" = .error .endOfData := by
    decide +kernel
  have missing : State.load Cyrillic.options greetings [⟨"/l"⟩] "shop" "it" =
      .ok ((State.empty "it").warn (.missingFile "shop" "it")) := by
    decide +kernel
  refine ⟨reached, ?_, switched.locale_eq, switched.kept "app" 0 _ app broken, ?_, ?_⟩
  · cases outcome : (twoDomains.setLocale greetings "it").1 with
    | ok _ =>
      obtain ⟨s, loaded⟩ := switched.ok_iff.1 outcome "app" 0 app
      cases broken.symm.trans loaded
    | error problem =>
      obtain ⟨domain, h, found, fails⟩ := switched.blamed problem outcome
      have member := cached ▸ Table.find?_eq_some_iff.1 found
      simp only [List.mem_cons, Prod.mk.injEq, List.not_mem_nil, or_false] at member
      rcases member with ⟨rfl, rfl⟩ | ⟨rfl, rfl⟩
      · exact congrArg Except.error (Except.error.inj (fails.symm.trans broken))
      · cases fails.symm.trans missing
  · obtain ⟨k, -, renewed⟩ := switched.renewed "shop" 1 _ shop missing
    exact congrArg (Option.map Catalog.state) renewed
  · have swapped : [("shop", 1), ("app", 0)].Perm twoDomains.domains.entries :=
      cached ▸ List.Perm.swap ("app", 0) ("shop", 1) []
    exact (ordered _ swapped).2

end MessageCatalog.Catalog
