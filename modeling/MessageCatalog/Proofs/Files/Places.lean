import MessageCatalog.Files.Tree
import MessageCatalog.Proofs.Text.Splitting

/-! Resolution of paths. A path that ends in a name leads to that name in the directory of its other
steps, which is the same in every tree where these resolve. -/
namespace MessageCatalog.Files

namespace Path

/-- Directory steps and a final name. -/
structure Names (p : Path) (directory : List String) (name : String) : Prop where
  steps : p.steps = directory ++ [name]
  proper : isName name = true

def isNamed (p : Path) : Bool := p.steps.getLast?.any isName

variable {p : Path} {directory : List String} {name ending : String}

theorem exists_names (h : p.isNamed = true) : ∃ directory name, p.Names directory name := by
  obtain ⟨name, last, proper⟩ := (Option.any_eq_true _ _).1 h
  obtain ⟨directory, steps⟩ := List.getLast?_eq_some_iff.1 last
  exact ⟨directory, name, steps, proper⟩

theorem Names.text_ne (h : p.Names directory name) : p.text.isEmpty = false := by
  refine Bool.eq_false_iff.2 fun empty => ?_
  have text : p.text = "" := by simpa using empty
  have nameless : [""] = directory ++ [name] := by
    rw [← h.steps, Path.steps, text]
    simp
  obtain ⟨-, rfl⟩ : directory = [] ∧ name = "" := by
    simpa using List.append_eq_singleton_iff.1 nameless.symm
  exact absurd h.proper (by decide)

theorem Names.extended (h : p.Names directory name) (unbroken : '/' ∉ ending.toList)
    (proper : isName (name ++ ending) = true) :
    (p.extended ending).Names directory (name ++ ending) where
  steps := by
    obtain ⟨init, last, parts, front, rfl⟩ : ∃ init last,
        p.text.toList.splitOn '/' = init ++ [last] ∧ init.map String.ofList = directory ∧
          String.ofList last = name := by
      have named := h.steps
      rw [Path.steps] at named
      obtain ⟨init, final, split, front, back⟩ := List.map_eq_append_iff.1 named
      obtain ⟨last, rfl, same⟩ := List.map_eq_singleton_iff.1 back
      exact ⟨init, last, split, front, same⟩
    rw [Path.steps, Path.extended, String.toList_append, Text.splitOn_append parts unbroken]
    simp [front]
  proper := proper

end Path

def stepFrom (here : Place) (step : String) : Place :=
  if staysHere step then here else if goesUp step then here.dropLast else here ++ [step]

theorem stepFrom_name {name : String} (proper : isName name = true) (here : Place) :
    stepFrom here name = here ++ [name] := by
  simp only [isName, Bool.and_eq_true, Bool.not_eq_true'] at proper
  simp [stepFrom, proper]

namespace Tree

variable {t other : Tree} {here x y : Place} {step : String} {steps more : List String}

theorem walk_cons :
    t.walk here (step :: steps) =
      if t.isDirectoryAt here then t.walk (stepFrom here step) steps else none := by
  rw [walk, stepFrom]
  split
  · split
    · rfl
    · split <;> rfl
  · rfl

theorem walk_append :
    t.walk here (steps ++ more) = (t.walk here steps).bind fun x => t.walk x more := by
  induction steps generalizing here with
  | nil => rfl
  | cons step steps ih =>
    rw [List.cons_append, walk_cons, walk_cons]
    split
    · exact ih
    · rfl

/-- Only directories are walked through. -/
theorem walk_congr (same : ∀ place, t.isDirectoryAt place = other.isDirectoryAt place) :
    t.walk here steps = other.walk here steps := by
  induction steps generalizing here with
  | nil => rfl
  | cons step steps ih => rw [walk_cons, walk_cons, same, ih]

/-- The same steps lead to the same place in all trees where they lead anywhere. -/
theorem walk_unique (first : t.walk here steps = some x) (second : other.walk here steps = some y) :
    x = y := by
  induction steps generalizing here with
  | nil => exact Option.some.inj (first.symm.trans second)
  | cons step steps ih =>
    rw [walk_cons, Option.ite_none_right_eq_some] at first second
    exact ih first.2 second.2

/-- Steps that do not go up extend the place they start from. -/
theorem prefix_of_walk (forward : ∀ step ∈ steps, goesUp step = false)
    (led : t.walk here steps = some x) : here <+: x := by
  induction steps generalizing here with
  | nil => exact Option.some.inj led ▸ List.prefix_rfl
  | cons step steps ih =>
    obtain ⟨first, others⟩ := List.forall_mem_cons.1 forward
    rw [walk_cons, Option.ite_none_right_eq_some] at led
    have onward : here <+: stepFrom here step := by
      simp only [stepFrom, first, Bool.false_eq_true, ↓reduceIte]
      split
      · exact List.prefix_rfl
      · exact List.prefix_append here [step]
    exact onward.trans (ih others led.2)

/-- A walk that does not go up depends only on the directories it passes. -/
theorem walk_of_directories (forward : ∀ step ∈ steps, goesUp step = false)
    (led : t.walk here steps = some x)
    (kept : ∀ place, place <+: x → t.isDirectoryAt place = true → other.isDirectoryAt place = true) :
    other.walk here steps = some x := by
  induction steps generalizing here with
  | nil => exact led
  | cons step steps ih =>
    have onTheWay := prefix_of_walk forward led
    rw [walk_cons, Option.ite_none_right_eq_some] at led
    rw [walk_cons, if_pos (kept here onTheWay led.1)]
    exact ih (List.forall_mem_cons.1 forward).2 led.2

section Kinds

variable {p : Path}

theorem isFile_congr (same : t.node? p = other.node? p) : t.isFile p = other.isFile p := by
  rw [isFile, isFile, contents?, contents?, same]

theorem isFile_eq_false (node : t.node? p = some .directory ∨ t.node? p = none) :
    t.isFile p = false := by
  rcases node with stands | free
  · rw [isFile, contents?, stands]
    rfl
  · rw [isFile, contents?, free]
    rfl

end Kinds

section Slots

variable {p : Path} {directory : List String} {name : String} {place : Place}

theorem slot?_eq (h : p.Names directory name) :
    t.slot? p = (t.walk [] directory).bind fun here =>
      if t.isDirectoryAt here then some (here ++ [name]) else none := by
  simp only [slot?, h.steps, List.getLast?_concat, h.proper, ↓reduceIte, List.dropLast_concat]
  cases t.walk [] directory <;> rfl

/-- A path leads to what stands in its slot. -/
theorem node?_eq (h : p.Names directory name) : t.node? p = (t.slot? p).bind t.at? := by
  simp only [node?, h.text_ne, h.steps, walk_append, slot?_eq h, walk_cons, stepFrom_name h.proper]
  rfl

theorem slot?_eq_some_iff (h : p.Names directory name) :
    t.slot? p = some place ↔
      ∃ here, t.walk [] directory = some here ∧ t.isDirectoryAt here = true ∧
        place = here ++ [name] := by
  simp only [slot?_eq h, Option.bind_eq_some_iff, Option.ite_none_right_eq_some, Option.some.injEq,
    eq_comm (a := place)]

/-- Slots of two names in one directory are siblings. -/
theorem slot?_beside {q : Path} {second : String} (h : p.Names directory name)
    (beside : q.Names directory second) :
    t.slot? q = (t.slot? p).map fun place => place.dropLast ++ [second] := by
  rw [slot?_eq h, slot?_eq beside]
  cases t.walk [] directory with
  | none => rfl
  | some here => by_cases stands : t.isDirectoryAt here <;> simp [stands]

theorem slot?_congr (h : p.Names directory name)
    (same : ∀ place, t.isDirectoryAt place = other.isDirectoryAt place) :
    t.slot? p = other.slot? p := by
  simp [slot?_eq h, walk_congr same, same]

theorem slot?_unique (h : p.Names directory name) (first : t.slot? p = some x)
    (second : other.slot? p = some y) : x = y := by
  obtain ⟨here, led, -, rfl⟩ := (slot?_eq_some_iff h).1 first
  obtain ⟨there, ledThere, -, rfl⟩ := (slot?_eq_some_iff h).1 second
  rw [walk_unique led ledThere]

end Slots

section Changes

variable {place source target rest : Place} {node : Option Node}

@[simp] theorem at?_set : (t.set place node).at? x = if x = place then node else t.at? x := rfl

theorem at?_transplant_target :
    (t.transplant source target).at? (target ++ rest) = t.at? (source ++ rest) := by
  simp [transplant]

theorem at?_transplant_source (apart : ¬target <+: source ++ rest) :
    (t.transplant source target).at? (source ++ rest) = none := by
  simp [transplant, apart]

theorem at?_transplant_other (below : ¬target <+: x) (beside : ¬source <+: x) :
    (t.transplant source target).at? x = t.at? x := by
  simp [transplant, below, beside]

end Changes

end Tree
end MessageCatalog.Files
