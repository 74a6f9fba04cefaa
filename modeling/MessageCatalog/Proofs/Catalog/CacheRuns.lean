import Mathlib.Data.List.Induction
import MessageCatalog.Image.Draft
import MessageCatalog.Proofs.Catalog.Reloading
import MessageCatalog.Proofs.Charset.Cyrillic

/-! Runs of a cache on one tree. After a successful change of locale every catalog is current; a
failed change may leave some behind, which the next successful one reloads. -/
namespace MessageCatalog.Catalog

open Charset Files

inductive Call where
  | get (domain : String)
  | setLocale (locale : String)
  | reset
  | contains (domain : String)
  deriving DecidableEq, Repr

inductive Answer where
  | catalog (result : Except Problem Handle)
  | switched (result : Except Problem Unit)
  | forgotten
  | known (cached : Bool)
  deriving DecidableEq

def Answer.switch? : Answer → Option (Except Problem Unit)
  | switched result => some result
  | catalog _ | forgotten | known _ => none

def lastSwitch? (answers : List Answer) : Option (Except Problem Unit) :=
  (answers.filterMap Answer.switch?).getLast?

/-- No change of locale, or the last one succeeded. -/
def Settled (answers : List Answer) : Prop :=
  ∀ problem, lastSwitch? answers ≠ some (.error problem)

theorem lastSwitch?_concat_switched (answers : List Answer) (result : Except Problem Unit) :
    lastSwitch? (answers ++ [.switched result]) = some result := by
  simp [lastSwitch?, Answer.switch?]

theorem lastSwitch?_concat_other (answers : List Answer) {a : Answer} (other : a.switch? = none) :
    lastSwitch? (answers ++ [a]) = lastSwitch? answers := by
  simp [lastSwitch?, other]

namespace Cache

variable {E : Type}

/-- Every cached domain has a catalog of its own on the shelf. -/
structure WellKept (c : Cache E) : Prop where
  held : ∀ domain h, c.domains.find? domain = some h → ∃ k, c.shelf.catalog? h = some k
  apart : ∀ a b h, c.domains.find? a = some h → c.domains.find? b = some h → a = b

def keep (c : Cache E) (domain : String) (s : State) : Cache E :=
  { c with
    domains := c.domains.insert domain (c.shelf.add s).2
    shelf := (c.shelf.add s).1 }

section Keeping

variable {c : Cache E} {domain : String} {s : State}

theorem wellKept_empty (dirs : List Path) (locale : String) (options : LoadOptions E) :
    WellKept (empty dirs locale options) where
  held := fun _ _ found => nomatch found
  apart := fun _ _ _ found => nomatch found

theorem wellKept_reset : WellKept c.reset where
  held := fun _ _ found => nomatch found
  apart := fun _ _ _ found => nomatch found

theorem find?_keep {other : String} {h : Handle}
    (found : (c.keep domain s).domains.find? other = some h) :
    other = domain ∧ h = (c.shelf.add s).2 ∨ c.domains.find? other = some h := by
  rw [keep, Table.find?_insert] at found
  by_cases same : other = domain
  · rw [if_pos same] at found
    exact .inl ⟨same, (Option.some.inj found).symm⟩
  · rw [if_neg same] at found
    exact .inr found

theorem WellKept.keep (kept : WellKept c) : WellKept (c.keep domain s) where
  held := by
    intro other h found
    rcases find?_keep found with ⟨-, rfl⟩ | before
    · exact ⟨_, c.shelf.catalog?_add_self s⟩
    · obtain ⟨k, held⟩ := kept.held other h before
      exact ⟨k, c.shelf.catalog?_add_of_held s held⟩
  apart := by
    intro a b h first second
    -- The new handle is not among those in use.
    have unused (other : String) (before : c.domains.find? other = some (c.shelf.add s).2) :
        False := by
      obtain ⟨k, held⟩ := kept.held other _ before
      exact c.shelf.ne_of_held s held rfl
    rcases find?_keep first with ⟨rfl, rfl⟩ | before
    · rcases find?_keep second with ⟨rfl, -⟩ | before
      · rfl
      · exact (unused b before).elim
    · rcases find?_keep second with ⟨rfl, rfl⟩ | earlier
      · exact (unused a before).elim
      · exact kept.apart a b h before earlier

theorem WellKept.handles_nodup (kept : WellKept c) :
    (c.domains.entries.map Prod.snd).Nodup := by
  refine List.pairwise_map.2 (c.domains.sorted.imp_of_mem ?_)
  intro a b first second less same
  have found (p : String × Handle) (member : p ∈ c.domains.entries) :
      c.domains.find? p.1 = some p.2 := Table.find?_eq_some_iff.2 member
  have equal := kept.apart a.1 b.1 b.2 (same ▸ found a first) (found b second)
  exact String.lt_irrefl b.1 (equal ▸ less)

end Keeping

variable [Encodings E]

def perform (c : Cache E) (tree : Tree) : Call → Answer × Cache E
  | .get domain =>
    let (result, after) := c.get tree domain
    (.catalog result, after)
  | .setLocale locale =>
    let (result, after) := c.setLocale tree locale
    (.switched result, after)
  | .reset => (.forgotten, c.reset)
  | .contains domain => (.known (c.contains domain), c)

def run (c : Cache E) : List (Tree × Call) → List Answer × Cache E
  | [] => ([], c)
  | (tree, call) :: rest =>
    let (answer, after) := c.perform tree call
    let (later, last) := after.run rest
    (answer :: later, last)

def lookup (c : Cache E) (tree : Tree) (domain : String) (q : Query) :
    Except Problem (Option String) :=
  let (result, after) := c.get tree domain
  result.map fun h => (after.shelf.state? h).map (·.answer q)

theorem run_concat (c : Cache E) (steps : List (Tree × Call)) (tree : Tree) (call : Call) :
    c.run (steps ++ [(tree, call)]) =
      ((c.run steps).1 ++ [((c.run steps).2.perform tree call).1],
        ((c.run steps).2.perform tree call).2) := by
  induction steps generalizing c with
  | nil => rfl
  | cons step steps ih =>
    obtain ⟨earlier, first⟩ := step
    simp only [List.cons_append, run, ih]

/-- Every cached catalog shows a load for the current locale. -/
def Current (tree : Tree) (c : Cache E) : Prop :=
  ∀ domain h, c.domains.find? domain = some h →
    ∃ s, c.shelf.state? h = some s ∧ c.load tree domain c.locale = .ok s

inductive Got (c : Cache E) (tree : Tree) (domain : String) :
    Except Problem Handle × Cache E → Prop
  | cached {h : Handle} (found : c.domains.find? domain = some h) : Got c tree domain (.ok h, c)
  | failed {problem : Problem} (absent : c.domains.find? domain = none)
      (loading : c.load tree domain c.locale = .error problem) :
      Got c tree domain (.error problem, c)
  | loaded {s : State} (absent : c.domains.find? domain = none)
      (loading : c.load tree domain c.locale = .ok s) :
      Got c tree domain (.ok (c.shelf.add s).2, c.keep domain s)

section Steps

variable {c : Cache E} {tree : Tree} {domain locale : String} {s : State}

theorem got_get (c : Cache E) (tree : Tree) (domain : String) :
    Got c tree domain (c.get tree domain) := by
  rw [get]
  cases found : c.domains.find? domain with
  | some h => exact .cached found
  | none =>
    cases loading : c.load tree domain c.locale with
    | ok s => exact .loaded found loading
    | error problem => exact .failed found loading

theorem current_empty (dirs : List Path) (locale : String) (options : LoadOptions E) (tree : Tree) :
    Current tree (empty dirs locale options) :=
  fun _ _ found => nomatch found

theorem Current.keep (current : Current tree c)
    (loading : c.load tree domain c.locale = .ok s) : Current tree (c.keep domain s) := by
  intro other h found
  rcases find?_keep found with ⟨rfl, rfl⟩ | before
  · refine ⟨s, ?_, loading⟩
    exact congrArg (Option.map _) (c.shelf.catalog?_add_self s)
  · obtain ⟨t, shown, fresh⟩ := current other h before
    obtain ⟨k, held, state⟩ := Option.map_eq_some_iff.1 shown
    refine ⟨t, ?_, fresh⟩
    exact Option.map_eq_some_iff.2 ⟨k, c.shelf.catalog?_add_of_held s held, state⟩

theorem WellKept.get (kept : WellKept c) : WellKept (c.get tree domain).2 := by
  have got := got_get c tree domain
  generalize c.get tree domain = result at got ⊢
  cases got with
  | cached _ => exact kept
  | failed _ _ => exact kept
  | loaded _ _ => exact kept.keep

theorem Current.get (current : Current tree c) : Current tree (c.get tree domain).2 := by
  have got := got_get c tree domain
  generalize c.get tree domain = result at got ⊢
  cases got with
  | cached _ => exact current
  | failed _ _ => exact current
  | loaded _ loading => exact current.keep loading

/-- A locale change reloads every cached domain and no other catalog. -/
theorem WellKept.catalog?_setLocale (kept : WellKept c) {h : Handle}
    (found : c.domains.find? domain = some h) :
    (c.setLocale tree locale).2.shelf.catalog? h =
      (c.shelf.catalog? h).map fun k => (k.reload (c.load tree domain locale)).2 :=
  catalog?_reloadAll_of_mem kept.handles_nodup (Table.find?_eq_some_iff.1 found)

theorem WellKept.setLocale (kept : WellKept c) : WellKept (c.setLocale tree locale).2 where
  held := by
    intro domain h found
    obtain ⟨k, held⟩ := kept.held domain h found
    rw [kept.catalog?_setLocale found, held]
    exact ⟨_, rfl⟩
  apart := kept.apart

/-- After a successful change every catalog is current, whatever was current before. -/
theorem WellKept.current_setLocale (kept : WellKept c)
    (succeeded : (c.setLocale tree locale).1 = .ok ()) :
    Current tree (c.setLocale tree locale).2 := by
  intro domain h found
  obtain ⟨s, loading⟩ := reloadAll_ok_iff.1 succeeded _ (Table.find?_eq_some_iff.1 found)
  obtain ⟨k, held⟩ := kept.held domain h found
  refine ⟨s, ?_, loading⟩
  rw [Shelf.state?, kept.catalog?_setLocale found, held, loading]
  rfl

theorem current_reset : Current tree c.reset := fun _ _ found => nomatch found

theorem WellKept.perform (kept : WellKept c) (call : Call) :
    WellKept (c.perform tree call).2 := by
  cases call with
  | get domain => exact kept.get
  | setLocale locale => exact kept.setLocale
  | reset => exact wellKept_reset
  | contains domain => exact kept

/-- Calls keep what loads depend on besides tree and locale. -/
theorem perform_frame (c : Cache E) (tree : Tree) (call : Call) :
    (c.perform tree call).2.dirs = c.dirs ∧ (c.perform tree call).2.options = c.options := by
  cases call with
  | get domain =>
    have got := got_get c tree domain
    rw [perform]
    generalize c.get tree domain = result at got ⊢
    cases got <;> exact ⟨rfl, rfl⟩
  | setLocale locale => exact ⟨rfl, rfl⟩
  | reset => exact ⟨rfl, rfl⟩
  | contains domain => exact ⟨rfl, rfl⟩

/-- One call preserves currency wherever the locale is settled. -/
theorem current_perform (kept : WellKept c) {answers : List Answer}
    (current : Settled answers → Current tree c) (call : Call)
    (settled : Settled (answers ++ [(c.perform tree call).1])) :
    Current tree (c.perform tree call).2 := by
  have before (other : (c.perform tree call).1.switch? = none) : Current tree c := by
    refine current fun problem => ?_
    rw [← lastSwitch?_concat_other answers other]
    exact settled problem
  cases call with
  | get domain => exact (before rfl).get
  | setLocale locale =>
    refine kept.current_setLocale ?_
    cases outcome : (c.setLocale tree locale).1 with
    | ok _ => rfl
    | error problem =>
      refine (settled problem ?_).elim
      exact (lastSwitch?_concat_switched answers _).trans (congrArg some outcome)
  | reset => exact current_reset
  | contains domain => exact before rfl

end Steps

section Runs

variable {c : Cache E} {tree : Tree}

theorem WellKept.run (kept : WellKept c) (steps : List (Tree × Call)) :
    WellKept (c.run steps).2 := by
  induction steps generalizing c with
  | nil => exact kept
  | cons step steps ih => exact ih (kept.perform step.2)

theorem run_frame (c : Cache E) (steps : List (Tree × Call)) :
    (c.run steps).2.dirs = c.dirs ∧ (c.run steps).2.options = c.options := by
  induction steps generalizing c with
  | nil => exact ⟨rfl, rfl⟩
  | cons step steps ih =>
    obtain ⟨dirs, options⟩ := c.perform_frame step.1 step.2
    obtain ⟨lastDirs, lastOptions⟩ := ih (c.perform step.1 step.2).2
    exact ⟨lastDirs.trans dirs, lastOptions.trans options⟩

/-- A run on one tree that settles the locale leaves every cached catalog current. -/
theorem current_run (kept : WellKept c) (current : Current tree c) (calls : List Call)
    (settled : Settled (c.run (calls.map (tree, ·))).1) :
    Current tree (c.run (calls.map (tree, ·))).2 := by
  -- From the last call backwards: a failed change of the locale may stand before it.
  induction calls using List.reverseRecOn with
  | nil => exact current
  | append_singleton calls call ih =>
    rw [List.map_append, List.map_singleton, run_concat] at settled ⊢
    exact current_perform (kept.run _) ih call settled

end Runs

section Settled

variable {c : Cache E} {tree : Tree} {domain : String}

theorem Current.state?_get (current : Current tree c) {h : Handle}
    (got : (c.get tree domain).1 = .ok h) :
    ∃ s, (c.get tree domain).2.shelf.state? h = some s ∧
      c.load tree domain c.locale = .ok s := by
  have cases := got_get c tree domain
  generalize c.get tree domain = result at cases got ⊢
  cases cases with
  | cached found =>
    cases got
    exact current domain h found
  | failed _ _ => cases got
  | loaded _ loading =>
    cases got
    exact ⟨_, congrArg (Option.map _) (c.shelf.catalog?_add_self _), loading⟩

/-- A domain is refused for the problem of its own load. -/
theorem Current.get_error_iff (current : Current tree c) {problem : Problem} :
    (c.get tree domain).1 = .error problem ↔
      c.load tree domain c.locale = .error problem := by
  have cases := got_get c tree domain
  generalize c.get tree domain = result at cases ⊢
  cases cases with
  | cached found =>
    obtain ⟨s, -, loading⟩ := current domain _ found
    simp [loading]
  | failed _ loading => simp [loading]
  | loaded _ loading => simp [loading]

theorem Current.lookup_eq (current : Current tree c) (q : Query) :
    c.lookup tree domain q =
      (c.load tree domain c.locale).map fun s => some (s.answer q) := by
  rw [lookup]
  cases got : (c.get tree domain).1 with
  | ok h =>
    obtain ⟨s, shown, loading⟩ := current.state?_get got
    simp only [got, loading, Except.map, shown, Option.map_some]
  | error problem =>
    simp only [got, current.get_error_iff.1 got, Except.map]

end Settled

end Cache

/-- After every run on one tree that settles the locale, cached catalogs, requests and look-ups
agree with a load for the current locale. -/
theorem history_independent {E : Type} [Encodings E] (dirs : List Path) (locale : String)
    (options : LoadOptions E) (tree : Tree) (calls : List Call)
    (settled : Settled ((Cache.empty dirs locale options).run (calls.map (tree, ·))).1) :
    let c := ((Cache.empty dirs locale options).run (calls.map (tree, ·))).2
    let fresh (domain : String) := State.load options tree dirs domain c.locale
    (∀ domain h, c.domains.find? domain = some h →
      ∃ s, c.shelf.state? h = some s ∧ fresh domain = .ok s) ∧
    (∀ domain h, (c.get tree domain).1 = .ok h →
      ∃ s, (c.get tree domain).2.shelf.state? h = some s ∧ fresh domain = .ok s) ∧
    (∀ domain problem,
      (c.get tree domain).1 = .error problem ↔ fresh domain = .error problem) ∧
    ∀ domain q, c.lookup tree domain q = (fresh domain).map fun s => some (s.answer q) := by
  intro c fresh
  have current : Cache.Current tree c :=
    Cache.current_run (Cache.wellKept_empty dirs locale options)
      (Cache.current_empty dirs locale options tree) calls settled
  obtain ⟨sameDirs, sameOptions⟩ : c.dirs = dirs ∧ c.options = options :=
    (Cache.empty dirs locale options).run_frame _
  have load (domain : String) : c.load tree domain c.locale = fresh domain := by
    rw [Cache.load, sameDirs, sameOptions]
  simp only [← load]
  exact ⟨current, fun _ _ => current.state?_get, fun _ _ => current.get_error_iff,
    fun _ => current.lookup_eq⟩

def greetings : Tree :=
  let german := ((Image.Draft.empty.add "" "Language: de\n").add "Hello" "Hallo").bytes
  let installed := Tree.empty.addFile? ⟨"/l/de/LC_MESSAGES/app.mo"⟩ german
  (installed.bind (·.addFile? ⟨"/l/it/LC_MESSAGES/app.mo"⟩ [])).getD Tree.empty

def switches : List Call := [.get "app", .setLocale "it", .setLocale "de"]

theorem history_independent_greetings :
    let run := (Cache.empty [⟨"/l"⟩] "fr" Cyrillic.options).run (switches.map (greetings, ·))
    .switched (.error .endOfData) ∈ run.1 ∧ Settled run.1 ∧
      run.2.lookup greetings "app" ⟨none, "Hello", none, 1, none⟩ = .ok (some "Hallo") := by
  intro run
  have answers : run.1 = [.catalog (.ok 0), .switched (.error .endOfData), .switched (.ok ())] := by
    decide +kernel
  have last : lastSwitch? run.1 = some (.ok ()) := by
    rw [answers]
    rfl
  have settled : Settled run.1 := fun problem failed => nomatch last.symm.trans failed
  have current := history_independent [⟨"/l"⟩] "fr" Cyrillic.options greetings switches settled
  refine ⟨by simp [answers], settled, ?_⟩
  rw [current.2.2.2]
  decide +kernel

end MessageCatalog.Catalog
