import MessageCatalog.Proofs.Files.Places
import MessageCatalog.Proofs.Outcome
import MessageCatalog.Proofs.Template.StoreRuns
import MessageCatalog.Template.Save

/-! Saving a template to a file tree, by the five outcomes of a save. Paths that end in a slash or
in `/.` name no file: nothing is written, but a file at the backup path below them is removed. -/
namespace MessageCatalog.Template

open Files

/-- The subtree at a place. -/
def standing (tree : Tree) (place : Place) : Place → Option Node :=
  fun rest => tree.at? (place ++ rest)

structure Beside (place backup : Place) : Prop where
  length : place.length = backup.length
  apart : place ≠ backup

/-- The slots of a path and of its backup path. -/
structure Sites (tree : Tree) (p : Path) (place backup : Place) : Prop where
  own : tree.slot? p = some place
  spare : tree.slot? (backupPath p) = some backup
  beside : Beside place backup

/-- Moves a place onto a freed backup place. -/
def aside (tree : Tree) (place backup : Place) : Tree :=
  (tree.set backup none).transplant place backup

section Places

variable {tree other : Tree} {p : Path} {place backup rest x : Place} {directory : List String}
  {name : String}

theorem Beside.symm (h : Beside place backup) : Beside backup place := ⟨h.length.symm, h.apart.symm⟩

theorem Beside.not_prefix (h : Beside place backup) (rest : Place) : ¬backup <+: place ++ rest := by
  intro below
  have whole : backup <+: place := List.prefix_of_prefix_length_le below
    (List.prefix_append place rest) h.length.ge
  exact h.apart (whole.eq_of_length h.length.symm).symm

theorem isName_backup (proper : isName name = true) : isName (name ++ ".bak") = true := by
  have long (short : String) (few : short.length < 4) : name ++ ".bak" ≠ short := by
    rintro rfl
    rw [String.length_append] at few
    exact absurd (Nat.lt_of_le_of_lt (Nat.le_add_left _ _) few) (by decide)
  have empty := long "" (by decide)
  have here := long "." (by decide)
  have up := long ".." (by decide)
  have plain : '\x00' ∉ name.toList := by
    simp only [isName, Bool.and_eq_true, Bool.not_eq_true', List.contains_eq_mem,
      decide_eq_false_iff_not] at proper
    exact proper.2
  simp [isName, staysHere, goesUp, here, up, plain]

theorem names_backupPath (h : p.Names directory name) :
    (backupPath p).Names directory (name ++ ".bak") :=
  h.extended (by decide) (isName_backup h.proper)

theorem exists_sites (h : p.Names directory name) (led : tree.slot? p = some place) :
    ∃ backup, Sites tree p place backup := by
  obtain ⟨here, -, -, rfl⟩ := (Tree.slot?_eq_some_iff h).1 led
  have spare : tree.slot? (backupPath p) = some (here ++ [name ++ ".bak"]) := by
    rw [Tree.slot?_beside h (names_backupPath h), led, Option.map_some, List.dropLast_concat]
  refine ⟨_, led, spare, by simp, fun same => ?_⟩
  have names : name = name ++ ".bak" := by simpa using same
  have lengths := congrArg String.length names
  rw [String.length_append] at lengths
  exact absurd (Nat.add_eq_left.1 lengths.symm) (by decide)

/-- Path and backup path have the same slots in all trees where the path has one. -/
theorem Sites.transfer (h : p.Names directory name) (sites : Sites tree p place backup)
    (led : other.slot? p = some x) : Sites other p place backup := by
  obtain ⟨spare, there⟩ := exists_sites h led
  have own := Tree.slot?_unique h sites.own there.own
  have beside := Tree.slot?_unique (names_backupPath h) sites.spare there.spare
  subst own beside
  exact there

theorem standing_aside_backup (beside : Beside place backup) :
    standing (aside tree place backup) backup = standing tree place := by
  funext rest
  have other : place ++ rest ≠ backup := fun same => beside.not_prefix rest (same ▸ List.prefix_rfl)
  simp [standing, aside, Tree.at?_transplant_target, other]

theorem at?_aside_place (beside : Beside place backup) (rest : Place) :
    (aside tree place backup).at? (place ++ rest) = none :=
  Tree.at?_transplant_source (beside.not_prefix rest)

theorem isDirectoryAt_aside_place (beside : Beside place backup) :
    (aside tree place backup).isDirectoryAt place = false := by
  have nothing : (aside tree place backup).at? place = none := by
    simpa using at?_aside_place beside []
  simp [Tree.isDirectoryAt, nothing]

theorem at?_aside_other (below : ¬backup <+: x) (apart : ¬place <+: x) :
    (aside tree place backup).at? x = tree.at? x := by
  have other : x ≠ backup := by
    rintro rfl
    exact below List.prefix_rfl
  rw [aside, Tree.at?_transplant_other below apart]
  simp [other]

end Places

section Steps

variable {tree other : Tree} {p : Path} {place backup : Place} {directory : List String}
  {name : String} {text : List UInt8}

theorem slot?_of_unnamed (unnamed : p.isNamed = false) : tree.slot? p = none := by
  rw [Path.isNamed] at unnamed
  rw [Tree.slot?]
  cases last : p.steps.getLast? with
  | none => rfl
  | some name =>
    rw [last, Option.any_some] at unnamed
    simp [unnamed]

/-- A file that a path led to, now gone. -/
structure Removed (before after : Tree) (p : Path) (place : Place) : Prop where
  led : before.slot? p = some place
  file : ∃ contents, before.at? place = some (.file contents)
  gone : after.at? place = none

theorem at?_of_remove? (removed : tree.remove? p = some other) (x : Place) :
    other.at? x = tree.at? x ∨ Removed tree other p x := by
  unfold Tree.remove? at removed
  split at removed
  · cases removed
  · next place led =>
    split at removed
    · next contents file =>
      cases removed
      by_cases here : x = place
      · subst here
        exact .inr ⟨led, ⟨contents, file⟩, by simp⟩
      · exact .inl (by simp [here])
    · cases removed

theorem exists?_iff (h : p.Names directory name) (led : tree.slot? p = some place) :
    tree.exists? p = (tree.at? place).isSome := by
  rw [Tree.exists?, Tree.node?_eq h, led, Option.bind_some]

theorem set_of_at?_none (nothing : tree.at? place = none) : tree.set place none = tree := by
  have same : (tree.set place none).at? = tree.at? := by
    funext x
    rw [Tree.at?_set]
    split
    · next here => rw [here, nothing]
    · rfl
  cases tree
  exact congrArg Tree.mk same

theorem isDirectoryAt_set_none (free : tree.isDirectoryAt backup = false) (x : Place) :
    (tree.set backup none).isDirectoryAt x = tree.isDirectoryAt x := by
  by_cases here : x = backup
  · subst here
    simpa [Tree.isDirectoryAt] using free
  · simp [Tree.isDirectoryAt, here]

/-- The path is moved to its backup, unless a directory stands there. -/
theorem setAside_eq (h : p.Names directory name) (sites : Sites tree p place backup)
    (stands : tree.at? place ≠ none) :
    setAside tree p =
      if tree.isDirectoryAt backup then (.error (.backup (backupPath p)), tree)
      else (.ok (), aside tree place backup) := by
  have spare := names_backupPath h
  have moves (free : tree.isDirectoryAt backup = false) :
      (tree.set backup none).move? p (backupPath p) = some (aside tree place backup) := by
    have same := isDirectoryAt_set_none free
    have own := (Tree.slot?_congr h same).trans sites.own
    have second := (Tree.slot?_congr spare same).trans sites.spare
    have some : (tree.at? place).isNone = false := by simpa using Option.isSome_iff_ne_none.2 stands
    have outside : ¬place <+: backup := by simpa using sites.beside.symm.not_prefix []
    simp [Tree.move?, own, second, aside, sites.beside.apart, some, outside]
  cases found : tree.at? backup with
  | none =>
    have free : tree.isDirectoryAt backup = false := by simp [Tree.isDirectoryAt, found]
    have moved := moves free
    rw [set_of_at?_none found] at moved
    simp [setAside, exists?_iff spare sites.spare, found, free, moved]
  | some node =>
    cases node with
    | directory =>
      have blocked : tree.isDirectoryAt backup = true := by simp [Tree.isDirectoryAt, found]
      simp [setAside, exists?_iff spare sites.spare, Tree.remove?, sites.spare, found, blocked]
    | file contents =>
      have free : tree.isDirectoryAt backup = false := by simp [Tree.isDirectoryAt, found]
      simp [setAside, exists?_iff spare sites.spare, Tree.remove?, sites.spare, found, free,
        moves free]

end Steps

def contents (t : Template) : List UInt8 := Charset.Utf8.encode t.written

/-- The five outcomes of a save. -/
inductive Saves (t : Template) (tree : Tree) : Except SaveError Unit × Tree → Prop
  | astray (lost : tree.slot? t.path = none) : Saves t tree (.error .inaccessible, tree)
  | fresh {place backup : Place} (sites : Sites tree t.path place backup)
      (nothing : tree.at? place = none) :
      Saves t tree (.ok (), tree.set place (some (.file t.contents)))
  | blocked {place backup : Place} (sites : Sites tree t.path place backup)
      (stands : tree.at? place ≠ none) (taken : tree.isDirectoryAt backup = true) :
      Saves t tree (.error (.backup (backupPath t.path)), tree)
  | replaced {place backup : Place} (sites : Sites tree t.path place backup)
      (stands : tree.at? place ≠ none) (free : tree.isDirectoryAt backup = false)
      (led : (aside tree place backup).slot? t.path = some place) :
      Saves t tree (.ok (), (aside tree place backup).set place (some (.file t.contents)))
  | detached {place backup : Place} (sites : Sites tree t.path place backup)
      (stands : tree.at? place ≠ none) (free : tree.isDirectoryAt backup = false)
      (lost : (aside tree place backup).slot? t.path = none) :
      Saves t tree (.error .inaccessible, aside tree place backup)

theorem saves (t : Template) (tree : Tree) (named : t.path.isNamed = true) :
    Saves t tree (t.save tree) := by
  obtain ⟨directory, name, h⟩ := Path.exists_names named
  cases led : tree.slot? t.path with
  | none =>
    have absent : tree.exists? t.path = false := by simp [Tree.exists?, Tree.node?_eq h, led]
    have done : t.save tree = (.error .inaccessible, tree) := by
      simp [save, absent, Tree.write?, led]
    rw [done]
    exact .astray led
  | some place =>
    obtain ⟨backup, sites⟩ := exists_sites h led
    by_cases nothing : tree.at? place = none
    · have done : t.save tree = (.ok (), tree.set place (some (.file t.contents))) := by
        simp [save, exists?_iff h led, nothing, Tree.write?, led, Tree.isDirectoryAt, contents]
      rw [done]
      exact .fresh sites nothing
    · have present : tree.exists? t.path = true := by
        rw [exists?_iff h led]
        exact Option.isSome_iff_ne_none.2 nothing
      cases taken : tree.isDirectoryAt backup with
      | true =>
        have done : t.save tree = (.error (.backup (backupPath t.path)), tree) := by
          simp [save, present, setAside_eq h sites nothing, taken]
        rw [done]
        exact .blocked sites nothing taken
      | false =>
        have cleared : (aside tree place backup).isDirectoryAt place = false :=
          isDirectoryAt_aside_place sites.beside
        cases left : (aside tree place backup).slot? t.path with
        | none =>
          have done : t.save tree = (.error .inaccessible, aside tree place backup) := by
            simp [save, present, setAside_eq h sites nothing, taken, Tree.write?, left]
          rw [done]
          exact .detached sites nothing taken left
        | some there =>
          obtain rfl := Tree.slot?_unique h led left
          have done : t.save tree =
              (.ok (), (aside tree place backup).set place (some (.file t.contents))) := by
            simp [save, present, setAside_eq h sites nothing, taken, Tree.write?, left, cleared,
              contents]
          rw [done]
          exact .replaced sites nothing taken left

/-- Never succeeds, and removes at most the file at the backup path. -/
theorem save_of_unnamed {t : Template} {tree : Tree} (unnamed : t.path.isNamed = false) :
    (t.save tree).1 ≠ .ok () ∧ ∀ place, (t.save tree).2.at? place = tree.at? place ∨
      Removed tree (t.save tree).2 (backupPath t.path) place := by
  have nowhere (other : Tree) : other.slot? t.path = none := slot?_of_unnamed unnamed
  cases stands : tree.exists? t.path with
  | false => simp [save, stands, Tree.write?, nowhere]
  | true =>
    cases spare : tree.exists? (backupPath t.path) with
    | false => simp [save, setAside, stands, spare, Tree.move?, nowhere]
    | true =>
      cases removed : tree.remove? (backupPath t.path) with
      | none => simp [save, setAside, stands, spare, removed]
      | some cleared =>
        have left : t.save tree = (.error (.backup (backupPath t.path)), cleared) := by
          simp [save, setAside, stands, spare, removed, Tree.move?, nowhere]
        rw [left]
        exact ⟨nofun, at?_of_remove? removed⟩

section Saved

variable {t : Template} {tree after : Tree} {p : Path} {place backup : Place}
  {directory : List String} {name : String} {texts : List (List UInt8)} {text : List UInt8}

/-- The text is written, the old subtree backed up and the rest unchanged. -/
structure Saved (before after : Tree) (place backup : Place) (text : List UInt8) : Prop where
  written : after.at? place = some (.file text)
  kept : before.at? place ≠ none → standing after backup = standing before place
  alone : before.at? place ≠ none → ∀ rest, rest ≠ [] → after.at? (place ++ rest) = none
  untouched : before.at? place = none → ∀ other, other ≠ place → after.at? other = before.at? other
  framed : ∀ other, ¬place <+: other → ¬backup <+: other → after.at? other = before.at? other

theorem saved_set (nothing : tree.at? place = none) :
    Saved tree (tree.set place (some (.file text))) place backup text where
  written := by simp
  kept stands := absurd nothing stands
  alone stands := absurd nothing stands
  untouched _ other apart := by simp [apart]
  framed other apart _ := by
    have different : other ≠ place := by
      rintro rfl
      exact apart List.prefix_rfl
    simp [different]

theorem saved_aside (beside : Beside place backup) (stands : tree.at? place ≠ none) :
    Saved tree ((aside tree place backup).set place (some (.file text))) place backup text where
  written := by simp
  kept _ := by
    rw [← standing_aside_backup beside]
    funext rest
    have different : backup ++ rest ≠ place := fun same =>
      beside.symm.not_prefix rest (same ▸ List.prefix_rfl)
    simp [standing, different]
  alone _ rest some := by simp [some, at?_aside_place beside]
  untouched nothing := absurd nothing stands
  framed other apart below := by
    have different : other ≠ place := by
      rintro rfl
      exact apart List.prefix_rfl
    simp [different, at?_aside_other below apart]

theorem isDirectoryAt_set_file (free : tree.isDirectoryAt place = false) (x : Place) :
    (tree.set place (some (.file text))).isDirectoryAt x = tree.isDirectoryAt x := by
  by_cases here : x = place
  · subst here
    simpa [Tree.isDirectoryAt] using free
  · simp [Tree.isDirectoryAt, here]

theorem slot?_set_file (h : p.Names directory name) (free : tree.isDirectoryAt place = false) :
    (tree.set place (some (.file text))).slot? p = tree.slot? p :=
  Tree.slot?_congr h (isDirectoryAt_set_file free)

/-- After a successful save both paths lead where they led before. -/
theorem saved_of_ok (named : t.path.isNamed = true) (done : t.save tree = (.ok (), after)) :
    ∃ place backup, Sites tree t.path place backup ∧ Sites after t.path place backup ∧
      Saved tree after place backup t.contents := by
  obtain ⟨directory, name, h⟩ := Path.exists_names named
  have ways := saves t tree named
  rw [done] at ways
  cases ways with
  | @fresh place backup sites nothing =>
    have free : tree.isDirectoryAt place = false := by simp [Tree.isDirectoryAt, nothing]
    exact ⟨place, backup, sites, sites.transfer h ((slot?_set_file h free).trans sites.own),
      saved_set nothing⟩
  | @replaced place backup sites stands free led =>
    have free : (aside tree place backup).isDirectoryAt place = false :=
      isDirectoryAt_aside_place sites.beside
    exact ⟨place, backup, sites, sites.transfer h ((slot?_set_file h free).trans led),
      saved_aside sites.beside stands⟩

/-- After a failed save the old subtree stands at the path or at the former backup place. -/
theorem standing_of_error {e : SaveError} (named : t.path.isNamed = true)
    (failed : t.save tree = (.error e, after)) (led : tree.slot? t.path = some place) :
    standing after place = standing tree place ∨
      ∃ backup, tree.slot? (backupPath t.path) = some backup ∧
        standing after backup = standing tree place := by
  have ways := saves t tree named
  rw [failed] at ways
  cases ways with
  | astray lost => exact .inl rfl
  | blocked sites stands taken => exact .inl rfl
  | detached sites stands free lost =>
    obtain rfl := Option.some.inj (sites.own.symm.trans led)
    exact .inr ⟨_, sites.spare, standing_aside_backup sites.beside⟩

/-- A path that does not go up does not pass through what is moved. -/
theorem slot?_aside (h : p.Names directory name) (forward : ∀ step ∈ p.steps, goesUp step = false)
    (sites : Sites tree p place backup) : (aside tree place backup).slot? p = some place := by
  obtain ⟨here, led, stands, rfl⟩ := (Tree.slot?_eq_some_iff h).1 sites.own
  have beside := sites.beside
  have kept (x : Place) (above : x <+: here) :
      (aside tree (here ++ [name]) backup).at? x = tree.at? x := by
    have short : x.length < (here ++ [name]).length := by
      simpa using Nat.lt_succ_of_le above.length_le
    refine at?_aside_other (fun below => ?_) fun below => ?_
    · exact absurd below.length_le (by rw [← beside.length]; omega)
    · exact absurd below.length_le (by omega)
  have ahead : ∀ step ∈ directory, goesUp step = false := fun step member =>
    forward step (h.steps ▸ List.mem_append_left [name] member)
  refine (Tree.slot?_eq_some_iff h).2 ⟨here, ?_, ?_, rfl⟩
  · refine Tree.walk_of_directories ahead led fun x above directory => ?_
    rwa [Tree.isDirectoryAt, kept x above]
  · rwa [Tree.isDirectoryAt, kept here List.prefix_rfl]

/-- A save fails exactly for a missing directory or a directory at the backup path, if the path does
not go up. -/
theorem save_ok_iff (named : t.path.isNamed = true)
    (forward : ∀ step ∈ t.path.steps, goesUp step = false) :
    (t.save tree).1 = .ok () ↔ (tree.slot? t.path).isSome ∧
      ¬(tree.exists? t.path = true ∧ tree.node? (backupPath t.path) = some .directory) := by
  obtain ⟨directory, name, h⟩ := Path.exists_names named
  have present {place : Place} (led : tree.slot? t.path = some place) :
      tree.exists? t.path = true ↔ tree.at? place ≠ none := by
    rw [exists?_iff h led, Option.isSome_iff_ne_none]
  have spare {backup : Place} (led : tree.slot? (backupPath t.path) = some backup) :
      tree.node? (backupPath t.path) = some .directory ↔ tree.isDirectoryAt backup = true := by
    simp [Tree.node?_eq (names_backupPath h), led, Tree.isDirectoryAt]
  have ways := saves t tree named
  generalize t.save tree = result at ways
  cases ways with
  | astray lost => simp [lost]
  | fresh sites nothing => simp [sites.own, present sites.own, nothing]
  | blocked sites stands taken => simp [present sites.own, stands, spare sites.spare, taken]
  | replaced sites stands free led => simp [sites.own, spare sites.spare, free]
  | detached sites stands free lost =>
    rw [slot?_aside h forward sites] at lost
    cases lost

end Saved

section Runs

inductive Action where
  | call (call : Call)
  | head (heading : Heading)
  | save

def act (state : Template × Tree) : Action → Except SaveError (Template × Tree)
  | .call call => .ok (state.1.perform call, state.2)
  | .head heading => .ok ({ state.1 with heading }, state.2)
  | .save =>
    match state.1.save state.2 with
    | (.ok _, after) => .ok (state.1, after)
    | (.error e, _) => .error e

/-- Stops at the first save that fails. -/
def carryOut (actions : List Action) (state : Template × Tree) : Except SaveError (Template × Tree) :=
  actions.foldlM act state

def savedTexts : Template → List Action → List (List UInt8)
  | _, [] => []
  | t, .call call :: rest => savedTexts (t.perform call) rest
  | t, .head heading :: rest => savedTexts { t with heading } rest
  | t, .save :: rest => t.contents :: savedTexts t rest

/-- Path and backup path hold the last two texts. -/
structure Holds (tree : Tree) (p : Path) (texts : List (List UInt8)) : Prop where
  latest : ∀ earlier text, texts = earlier ++ [text] → tree.contents? p = some text
  previous : ∀ earlier text later, texts = earlier ++ [text, later] →
    tree.contents? (backupPath p) = some text

variable {t t' : Template} {tree after : Tree} {p : Path} {texts : List (List UInt8)}
  {actions : List Action}

theorem path_perform (t : Template) (call : Call) : (t.perform call).path = t.path := by
  have done := performed t call
  generalize t.perform call = next at done
  cases done with
  | added => rw [updateOrAdd]; split <;> rfl
  | edited => rw [update]; split <;> rfl
  | ignored => rfl

theorem Holds.save (held : Holds tree t.path texts) (named : t.path.isNamed = true)
    (done : t.save tree = (.ok (), after)) : Holds after t.path (texts ++ [t.contents]) := by
  obtain ⟨directory, name, h⟩ := Path.exists_names named
  obtain ⟨place, backup, before, sites, saved⟩ := saved_of_ok named done
  have spare := names_backupPath h
  constructor
  · intro earlier text split
    obtain ⟨-, rfl⟩ : texts = earlier ∧ t.contents = text := by
      simpa using List.append_inj' split rfl
    simp [Tree.contents?, Tree.node?_eq h, sites.own, saved.written]
  · intro earlier text later split
    have front : texts = earlier ++ [text] := by
      have parted : texts ++ [t.contents] = (earlier ++ [text]) ++ [later] := by simpa using split
      exact (List.append_inj' parted rfl).1
    have stood := held.latest earlier text front
    simp only [Tree.contents?, Tree.node?_eq h, before.own, Option.bind_some] at stood
    have stands : tree.at? place ≠ none := by
      intro nothing
      simp [nothing] at stood
    have same := congrFun (saved.kept stands) []
    simp only [standing, List.append_nil] at same
    simpa [Tree.contents?, Tree.node?_eq spare, sites.spare, same] using stood

theorem Holds.carryOut (held : Holds tree t.path texts) (named : t.path.isNamed = true)
    (done : carryOut actions (t, tree) = .ok (t', after)) :
    Holds after t.path (texts ++ savedTexts t actions) := by
  induction actions generalizing t tree texts with
  | nil =>
    cases done
    simpa [savedTexts] using held
  | cons action actions ih =>
    obtain ⟨next, first, rest⟩ := bind_ok (List.foldlM_cons.symm.trans done)
    cases action with
    | call call =>
      cases first
      have path := path_perform t call
      have held := ih (t := t.perform call) (path ▸ held) (path ▸ named) rest
      rwa [path] at held
    | head heading =>
      cases first
      exact ih (t := { t with heading }) held named rest
    | save =>
      simp only [act] at first
      split at first
      · next saved =>
        cases first
        simpa [savedTexts] using ih (held.save named saved) named rest
      · cases first

end Runs

/-- For a path that ends in a name: a successful save backs up the old subtree and changes nothing
else but what it writes, a failed save leaves it at the path or at the place to which the backup
path led before the call, and over a run path and backup hold the last two texts. Any other path,
such as one that ends in a slash or in `/.`, is refused, and at most the file at its backup path is
removed. -/
theorem saving_keeps_previous (t : Template) (tree : Tree) :
    (t.path.isNamed = true →
      (∀ after, t.save tree = (.ok (), after) →
        ∃ place backup, Sites tree t.path place backup ∧ Sites after t.path place backup ∧
          Saved tree after place backup t.contents) ∧
      (∀ e after place, t.save tree = (.error e, after) → tree.slot? t.path = some place →
        standing after place = standing tree place ∨
          ∃ backup, tree.slot? (backupPath t.path) = some backup ∧
            standing after backup = standing tree place) ∧
      ((∀ step ∈ t.path.steps, goesUp step = false) →
        ((t.save tree).1 = .ok () ↔ (tree.slot? t.path).isSome ∧
          ¬(tree.exists? t.path = true ∧ tree.node? (backupPath t.path) = some .directory))) ∧
      ∀ actions t' after, carryOut actions (t, tree) = .ok (t', after) →
        Holds after t.path (savedTexts t actions)) ∧
    (t.path.isNamed = false →
      (t.save tree).1 ≠ .ok () ∧ ∀ place, (t.save tree).2.at? place = tree.at? place ∨
        Removed tree (t.save tree).2 (backupPath t.path) place) := by
  refine ⟨fun named => ⟨fun after => saved_of_ok named, fun e after place => standing_of_error named,
    save_ok_iff named, fun actions t' after done => ?_⟩, save_of_unnamed⟩
  have nothing : Holds tree t.path [] := by
    constructor
    · simp
    · simp
  simpa using nothing.carryOut named done

def poFiles : Tree :=
  ((Tree.empty.set ["po"] (some .directory)).set ["po", "app.pot"] (some (.file [1]))).set
    ["po", "app.pot.bak"] (some (.file [2]))

theorem saving_keeps_previous_po :
    let t := new ⟨"po/app.pot"⟩ (Heading.standard "2024-03-01 09:05+0200")
    let edited := t.perform (.add none "Open" "menu.c:7")
    t.path.isNamed = true ∧
    (∃ after, t.save poFiles = (.ok (), after) ∧
      after.at? ["po", "app.pot"] = some (.file t.contents) ∧
      after.at? ["po", "app.pot.bak"] = some (.file [1])) ∧
    ∃ t' after, carryOut [.save, .call (.add none "Open" "menu.c:7"), .save] (t, poFiles) =
        .ok (t', after) ∧
      after.contents? ⟨"po/app.pot"⟩ = some edited.contents ∧
      after.contents? ⟨"po/app.pot.bak"⟩ = some t.contents := by
  intro t edited
  have named : t.path.isNamed = true := by decide
  obtain ⟨saved, -, succeeds, runs⟩ := (saving_keeps_previous t poFiles).1 named
  have forward : ∀ step ∈ t.path.steps, goesUp step = false := by decide
  refine ⟨named, ?_, ?_⟩
  · have done : (t.save poFiles).1 = .ok () := (succeeds forward).2 (by decide)
    obtain ⟨place, backup, sites, -, leaves⟩ := saved _ (Prod.ext done rfl)
    obtain rfl : place = ["po", "app.pot"] := Option.some.inj (sites.own.symm.trans (by decide))
    obtain rfl : backup = ["po", "app.pot.bak"] :=
      Option.some.inj (sites.spare.symm.trans (by decide))
    exact ⟨_, Prod.ext done rfl, leaves.written, congrFun (leaves.kept (by decide)) []⟩
  · let actions : List Action := [.save, .call (.add none "Open" "menu.c:7"), .save]
    have succeeded : (carryOut actions (t, poFiles)).toOption.isSome = true := by decide +kernel
    cases done : carryOut actions (t, poFiles) with
    | error e =>
      rw [done] at succeeded
      cases succeeded
    | ok last =>
      have held := runs actions last.1 last.2 done
      exact ⟨last.1, last.2, rfl, held.latest [t.contents] _ rfl, held.previous [] _ _ rfl⟩

def slashFiles : Tree :=
  ((Tree.empty.set ["a"] (some .directory)).set ["a", "b"] (some .directory)).set
    ["a", "b", ".bak"] (some (.file [1]))

/-- A path that ends in a slash has a last component but loses a file below it. A path that goes up
from what is moved leads nowhere afterwards, nor does its backup path. -/
theorem saving_not_always_kept :
    let slash := new ⟨"a/b/"⟩ (Heading.standard "2024-03-01 09:05+0200")
    let after := (slash.save slashFiles).2
    ((slash.path.steps.filter (!staysHere ·)).getLast? = some "b" ∧ isName "b" = true ∧
      slashFiles.walk [] slash.path.steps = some ["a", "b"] ∧
      slashFiles.slot? (backupPath slash.path) = some ["a", "b", ".bak"] ∧
      (slash.save slashFiles).1 = .error (.backup ⟨"a/b/.bak"⟩) ∧
      standing after ["a", "b"] ≠ standing slashFiles ["a", "b"] ∧
      standing after ["a", "b", ".bak"] ≠ standing slashFiles ["a", "b"]) ∧
    let climbing := new ⟨"x/../x"⟩ (Heading.standard "2024-03-01 09:05+0200")
    let files := Tree.empty.set ["x"] (some .directory)
    let after := (climbing.save files).2
    climbing.path.isNamed = true ∧ files.node? climbing.path = some .directory ∧
      (climbing.save files).1 = .error .inaccessible ∧
      after.node? climbing.path = none ∧ after.node? (backupPath climbing.path) = none := by
  intro slash after
  refine ⟨⟨by decide, by decide, by decide, by decide, by decide, fun same => ?_, fun same => ?_⟩,
    by decide⟩
  · have file : after.at? ["a", "b", ".bak"] = some (.file [1]) := congrFun same [".bak"]
    exact absurd file (by decide)
  · have directory : after.at? ["a", "b", ".bak"] = some .directory := congrFun same []
    exact absurd directory (by decide)

end MessageCatalog.Template
