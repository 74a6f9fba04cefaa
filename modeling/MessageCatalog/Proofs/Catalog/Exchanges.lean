import MessageCatalog.Proofs.Catalog.Reloading
import MessageCatalog.Proofs.Catalog.Sources

/-! Arbitrary sequences of exchanges. What a request installs is determined by the request, so a
catalog shows the last installed state, or still its first state object. -/
namespace MessageCatalog.Catalog

open Charset

variable {E : Type} [Encodings E]

inductive Request (E : Type) where
  | add (source : Source E)
  | reload (h : Handle) (source : Source E)
  | replace (h : Handle) (s : State)

def Request.installs? (h : Handle) : Request E → Option State
  | add _ => none
  | reload k source => if k = h then source.load.toOption else none
  | replace k s => if k = h then some s else none

/-- States installed under a handle, in order. -/
def installed (h : Handle) (requests : List (Request E)) : List State :=
  requests.filterMap (Request.installs? h)

theorem foldl_replace (c : Catalog) (states : List State) :
    states.foldl replace c = ⟨states.getLastD c.state, c.version + states.length⟩ := by
  induction states generalizing c with
  | nil => rfl
  | cons s states ih =>
    simp only [List.foldl_cons, ih, replace, List.getLastD_cons, List.length_cons, mk.injEq,
      true_and]
    omega

namespace Shelf

def perform (shelf : Shelf) : Request E → Except Problem Unit × Shelf
  | .add source =>
    match source.load with
    | .ok s => (.ok (), (shelf.add s).1)
    | .error problem => (.error problem, shelf)
  | .reload h source => shelf.reload h source.load
  | .replace h s => (.ok (), shelf.replace h s)

def after (shelf : Shelf) (requests : List (Request E)) : Shelf :=
  requests.foldl (fun shelf request => (shelf.perform request).2) shelf

/-- A reload succeeds or fails exactly as a fresh load. -/
structure ReloadsAsFresh (shelf : Shelf) (h : Handle) (source : Source E) : Prop where
  outcome : (shelf.perform (.reload h source)).1 = (shelf.perform (.add source)).1
  refused : ∀ problem, source.load = .error problem →
    shelf.perform (.reload h source) = (.error problem, shelf)
  renewed : ∀ s, source.load = .ok s → (shelf.perform (.reload h source)).1 = .ok () ∧
    (shelf.perform (.reload h source)).2.state? h = some s ∧
    (shelf.perform (.add source)).2.state? shelf.catalogs.length = some s

section Steps

variable {shelf : Shelf} {h k : Handle} {c : Catalog}

theorem catalog?_perform (held : shelf.catalog? h = some c) (request : Request E) :
    (shelf.perform request).2.catalog? h = some ((request.installs? h).elim c c.replace) := by
  cases request with
  | add source =>
    cases loading : source.load with
    | ok s =>
      simp only [perform, loading]
      exact shelf.catalog?_add_of_held s held
    | error problem =>
      simp only [perform, loading]
      exact held
  | reload k source => exact shelf.catalog?_reload_of_held source.load held
  | replace k s => exact shelf.catalog?_reload_of_held (.ok s) held

theorem reloadsAsFresh (held : shelf.catalog? h = some c) (source : Source E) :
    shelf.ReloadsAsFresh h source where
  outcome := by
    cases loading : source.load <;> simp [perform, loading]
  refused := by
    intro problem failed
    simp [perform, failed]
  renewed := by
    intro s loading
    refine ⟨?_, ?_, ?_⟩
    · simp [perform, loading]
    · have shown := catalog?_perform held (.reload h source)
      simp only [Request.installs?, loading] at shown
      exact congrArg (Option.map Catalog.state) shown
    · simp only [perform, loading]
      exact congrArg (Option.map Catalog.state) (shelf.catalog?_add_self s)

/-- A reload keeps the state object exactly when the load fails. -/
theorem hasState_reload_iff (held : shelf.catalog? h = some c) {s : State}
    {loaded : Except Problem State} :
    (shelf.reload h loaded).2.hasState h ⟨h, c.version, s⟩ = true ↔
      ∃ problem, loaded = .error problem := by
  rw [hasState, shelf.catalog?_reload_of_held loaded held, if_pos rfl]
  cases loaded <;> simp [Except.toOption, Catalog.replace]

end Steps

section Runs

variable {shelf : Shelf} {h : Handle} {c : Catalog}

theorem catalog?_after (held : shelf.catalog? h = some c) (requests : List (Request E)) :
    (shelf.after requests).catalog? h = some ((installed h requests).foldl Catalog.replace c) := by
  induction requests generalizing shelf c with
  | nil => exact held
  | cons request requests ih =>
    have rest := ih (catalog?_perform held request)
    rw [installed, List.filterMap_cons]
    cases installs : request.installs? h with
    | none =>
      rw [installs] at rest
      exact rest
    | some s =>
      rw [installs] at rest
      exact rest

theorem state?_after (held : shelf.catalog? h = some c) (requests : List (Request E)) :
    (shelf.after requests).state? h = some ((installed h requests).getLastD c.state) := by
  rw [state?, catalog?_after held, foldl_replace]
  rfl

theorem snapshot?_after (held : shelf.catalog? h = some c) (requests : List (Request E)) :
    (shelf.after requests).snapshot? h = some ⟨h, c.version + (installed h requests).length,
      (installed h requests).getLastD c.state⟩ := by
  rw [snapshot?, catalog?_after held, foldl_replace]
  rfl

theorem hasState_after_iff (held : shelf.catalog? h = some c) {s : State}
    (requests : List (Request E)) :
    (shelf.after requests).hasState h ⟨h, c.version, s⟩ = true ↔ installed h requests = [] := by
  simp [hasState, catalog?_after held, foldl_replace]

end Runs

end Shelf

/-- For every first state, and any requests before and after. -/
theorem reload_whole_or_refused (shelf : Shelf) (first : State) (before after : List (Request E))
    (source : Source E) :
    let h := (shelf.add first).2
    let now := (shelf.add first).1.after before
    ∃ sn, now.snapshot? h = some sn ∧ sn.state = (installed h before).getLastD first ∧
      now.ReloadsAsFresh h source ∧
      ((now.perform (.reload h source)).2.hasState h sn = true ↔
        ∃ problem, source.load = .error problem) ∧
      (now.after after).state? h = some ((installed h after).getLastD sn.state) ∧
      ((now.after after).hasState h sn = true ↔ installed h after = []) := by
  intro h now
  have opened := shelf.catalog?_add_self first
  have held := Shelf.catalog?_after opened before
  rw [foldl_replace] at held
  refine ⟨_, Shelf.snapshot?_after opened before, rfl, Shelf.reloadsAsFresh held source,
    Shelf.hasState_reload_iff held, ?_, Shelf.hasState_after_iff held after⟩
  exact Shelf.state?_after held after

def cutShort : Source Cyrillic :=
  .image .standard "it"
    ((Image.Draft.empty.add "" "Language: it\n").add "Hello" "Ciao").bytes.dropLast.dropLast

def german : Source Cyrillic :=
  .image .standard "en" ((Image.Draft.empty.add "" "Language: de\n").add "Hello" "Hallo").bytes

theorem reload_whole_or_refused_cutShort :
    let now := (Shelf.empty.add (.empty "en")).1.after [.reload 0 german]
    now.perform (.reload 0 cutShort) = (.error .endOfData, now) ∧
      ∃ sn, now.snapshot? 0 = some sn ∧ sn.state.locale = "de" ∧
        (now.after [.reload 0 cutShort, .add german]).hasState 0 sn = true := by
  intro now
  have cut : cutShort.load = .error .endOfData := by decide +kernel
  have shown : ((installed 0 [.reload 0 german]).getLastD (.empty "en")).locale = "de" := by
    decide +kernel
  obtain ⟨sn, taken, state, fresh, -, -, still⟩ := reload_whole_or_refused Shelf.empty (.empty "en")
    [.reload 0 german] [.reload 0 cutShort, .add german] cutShort
  refine ⟨fresh.refused .endOfData cut, sn, taken, ?_, still.2 ?_⟩
  · rw [state]
    exact shown
  · simp [installed, Request.installs?, cut, Except.toOption]

end MessageCatalog.Catalog
