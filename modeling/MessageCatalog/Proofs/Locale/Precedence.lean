import Mathlib.Data.List.Find
import MessageCatalog.Proofs.Files.Places
import MessageCatalog.Proofs.Locale.Fallbacks

/-! Search order. Candidate paths are ranked by directory, name and layout, and a search returns the
regular file of the first rank; later ranks and appended directories are irrelevant. -/
namespace MessageCatalog.Locale

open Files

inductive Layout where
  | messages
  | flat
  deriving DecidableEq, Repr

def Layout.place (dir : Path) (domain name : String) : Layout → Path
  | messages => ((dir.join name).join "LC_MESSAGES").join (domain ++ ".mo")
  | flat => (dir.join name).join (domain ++ ".mo")

structure Rank where
  directory : Nat
  name : Nat
  layout : Layout
  deriving DecidableEq, Repr

/-- Directory, then name, then layout. -/
def Rank.Before (a b : Rank) : Prop :=
  a.directory < b.directory ∨ a.directory = b.directory ∧
    (a.name < b.name ∨ a.name = b.name ∧ a.layout = .messages ∧ b.layout = .flat)

instance (a b : Rank) : Decidable (a.Before b) :=
  inferInstanceAs (Decidable (_ ∨ _ ∧ (_ ∨ _ ∧ _ ∧ _)))

def Rank.place? (r : Rank) (dirs : List Path) (domain locale : String) : Option Path :=
  match dirs[r.directory]?, (candidates locale)[r.name]? with
  | some dir, some name => some (r.layout.place dir domain name)
  | _, _ => none

/-- A file of this rank, and none of an earlier one. -/
structure First (tree : Tree) (dirs : List Path) (domain locale : String) (rank : Rank) (path : Path) :
    Prop where
  place : rank.place? dirs domain locale = some path
  file : tree.isFile path = true
  earlier : ∀ (other : Rank) p, other.place? dirs domain locale = some p → other.Before rank →
    tree.isFile p = false

/-- The first hit stands at some index, with none before it. -/
theorem findSome?_eq_some_iff_index {α β : Type} {f : α → Option β} {b : β} {l : List α} :
    l.findSome? f = some b ↔
      ∃ (i : Nat) (a : α), l[i]? = some a ∧ f a = some b ∧
        ∀ j < i, ∀ x, l[j]? = some x → f x = none := by
  rw [List.findSome?_eq_some_iff]
  constructor
  · rintro ⟨before, a, after, rfl, found, none⟩
    refine ⟨before.length, a, by simp, found, fun j less x inside => none x ?_⟩
    rw [List.getElem?_append_left less] at inside
    exact List.mem_of_getElem? inside
  · rintro ⟨i, a, inside, found, none⟩
    obtain ⟨bound, rfl⟩ := List.getElem?_eq_some_iff.1 inside
    refine ⟨l.take i, l[i], l.drop (i + 1), by simp, found, fun x member => ?_⟩
    obtain ⟨j, less, rfl⟩ := List.mem_take_iff_getElem.1 member
    exact none j (by omega) _ (List.getElem?_eq_getElem _)

section Search

variable {tree other : Tree} {dirs more : List Path} {domain locale name : String} {dir path : Path}
  {rank : Rank} {accepted : Path → Bool}

theorem place?_eq_some_iff :
    rank.place? dirs domain locale = some path ↔
      ∃ dir name, dirs[rank.directory]? = some dir ∧ (candidates locale)[rank.name]? = some name ∧
        rank.layout.place dir domain name = path := by
  rw [Rank.place?]
  cases dirs[rank.directory]? <;> cases (candidates locale)[rank.name]? <;> simp

/-- Ranks range over directories, names and layouts. -/
theorem forall_ranks_iff {P : Rank → Path → Prop} :
    (∀ (rank : Rank) p, rank.place? dirs domain locale = some p → P rank p) ↔
      ∀ i < dirs.length, ∀ j < (candidates locale).length, ∀ layout ∈ [Layout.messages, .flat],
        ∀ p ∈ Rank.place? ⟨i, j, layout⟩ dirs domain locale, P ⟨i, j, layout⟩ p := by
  constructor
  · exact fun all i _ j _ layout _ p place => all ⟨i, j, layout⟩ p place
  · rintro each ⟨i, j, layout⟩ p place
    obtain ⟨dir, name, dirAt, nameAt, -⟩ := place?_eq_some_iff.1 place
    obtain ⟨first, -⟩ := List.getElem?_eq_some_iff.1 dirAt
    obtain ⟨second, -⟩ := List.getElem?_eq_some_iff.1 nameAt
    exact each i first j second layout (by cases layout <;> simp) p place

instance {P : Rank → Path → Prop} [∀ rank p, Decidable (P rank p)] :
    Decidable (∀ (rank : Rank) p, rank.place? dirs domain locale = some p → P rank p) :=
  decidable_of_iff _ forall_ranks_iff.symm

instance : Decidable (First tree dirs domain locale rank path) :=
  decidable_of_iff (rank.place? dirs domain locale = some path ∧ tree.isFile path = true ∧
      ∀ (other : Rank) p, other.place? dirs domain locale = some p → other.Before rank →
        tree.isFile p = false)
    ⟨fun ⟨place, file, earlier⟩ => ⟨place, file, earlier⟩,
      fun ⟨place, file, earlier⟩ => ⟨place, file, earlier⟩⟩

theorem mem_places_iff :
    path ∈ places dirs domain locale ↔ ∃ rank : Rank, rank.place? dirs domain locale = some path := by
  constructor
  · intro member
    obtain ⟨dir, searched, member⟩ := List.mem_flatMap.1 member
    obtain ⟨name, tried, member⟩ := List.mem_flatMap.1 member
    obtain ⟨i, dirAt⟩ := List.mem_iff_getElem?.1 searched
    obtain ⟨j, nameAt⟩ := List.mem_iff_getElem?.1 tried
    rcases List.mem_cons.1 member with rfl | member
    · exact ⟨⟨i, j, .messages⟩, place?_eq_some_iff.2 ⟨dir, name, dirAt, nameAt, rfl⟩⟩
    · rw [List.mem_singleton.1 member]
      exact ⟨⟨i, j, .flat⟩, place?_eq_some_iff.2 ⟨dir, name, dirAt, nameAt, rfl⟩⟩
  · rintro ⟨⟨i, j, layout⟩, place⟩
    obtain ⟨dir, name, dirAt, nameAt, rfl⟩ := place?_eq_some_iff.1 place
    refine mem_places (List.mem_of_getElem? dirAt) (List.mem_of_getElem? nameAt) ?_
    cases layout <;> simp [placesUnder, Layout.place]

theorem find?_placesUnder :
    (placesUnder dir domain name).find? accepted = some path ↔
      ∃ layout : Layout, layout.place dir domain name = path ∧ accepted path = true ∧
        (layout = .flat → accepted (Layout.messages.place dir domain name) = false) := by
  change [Layout.messages.place dir domain name, Layout.flat.place dir domain name].find? _ = _ ↔ _
  cases first : accepted (Layout.messages.place dir domain name) with
  | true =>
    rw [List.find?_cons_of_pos first, Option.some.injEq]
    constructor
    · rintro rfl
      exact ⟨.messages, rfl, first, nofun⟩
    · rintro ⟨layout, place, -, last⟩
      cases layout with
      | messages => exact place
      | flat => cases last rfl
  | false =>
    rw [List.find?_cons_of_neg (by simp [first]), List.find?_singleton, Option.ite_none_right_eq_some,
      Option.some.injEq]
    constructor
    · rintro ⟨found, rfl⟩
      exact ⟨.flat, rfl, found, fun _ => rfl⟩
    · rintro ⟨layout, rfl, found, -⟩
      cases layout with
      | messages => rw [first] at found; cases found
      | flat => exact ⟨found, rfl⟩

theorem find?_placesUnder_eq_none :
    (placesUnder dir domain name).find? accepted = none ↔
      ∀ layout : Layout, accepted (layout.place dir domain name) = false := by
  rw [List.find?_eq_none]
  constructor
  · intro refused layout
    cases layout <;> exact Bool.eq_false_iff.2 (refused _ (by simp [placesUnder, Layout.place]))
  · intro refused p member
    rcases List.mem_cons.1 member with rfl | member
    · simpa [Layout.place] using refused .messages
    · rw [List.mem_singleton.1 member]
      simpa [Layout.place] using refused .flat

theorem find_eq_ok_iff_findSome? :
    find tree dirs domain locale = .ok path ↔
      (dirs.findSome? fun dir => (candidates locale).findSome? fun name =>
        (placesUnder dir domain name).find? tree.isFile) = some path := by
  simp only [find, places, List.find?_flatMap]
  generalize dirs.findSome? _ = found
  cases found <;> simp

/-- A search returns the file of the first rank. -/
theorem exists_first (found : find tree dirs domain locale = .ok path) :
    ∃ rank, First tree dirs domain locale rank path := by
  simp only [find_eq_ok_iff_findSome?, findSome?_eq_some_iff_index, find?_placesUnder,
    List.findSome?_eq_none_iff, find?_placesUnder_eq_none] at found
  obtain ⟨i, dir, dirAt, ⟨j, name, nameAt, ⟨layout, place, file, last⟩, names⟩, dirs⟩ := found
  refine ⟨⟨i, j, layout⟩, place?_eq_some_iff.2 ⟨dir, name, dirAt, nameAt, place⟩, file, ?_⟩
  rintro ⟨i', j', layout'⟩ p place' before
  obtain ⟨dir', name', dirAt', nameAt', rfl⟩ := place?_eq_some_iff.1 place'
  rcases before with sooner | ⟨rfl, sooner | ⟨rfl, rfl, flat⟩⟩
  · exact dirs i' sooner dir' dirAt' name' (List.mem_of_getElem? nameAt') layout'
  · obtain rfl := Option.some.inj (dirAt.symm.trans dirAt')
    exact names j' sooner name' nameAt' layout'
  · obtain rfl := Option.some.inj (dirAt.symm.trans dirAt')
    obtain rfl := Option.some.inj (nameAt.symm.trans nameAt')
    exact last flat

theorem First.find (first : First tree dirs domain locale rank path) :
    find tree dirs domain locale = .ok path := by
  obtain ⟨i, j, layout⟩ := rank
  obtain ⟨dir, name, dirAt, nameAt, place⟩ := place?_eq_some_iff.1 first.place
  have refused (other : Rank) (before : other.Before ⟨i, j, layout⟩) {dir' : Path} {name' : String}
      (dirAt' : dirs[other.directory]? = some dir')
      (nameAt' : (candidates locale)[other.name]? = some name') :
      tree.isFile (other.layout.place dir' domain name') = false :=
    first.earlier other _ (place?_eq_some_iff.2 ⟨dir', name', dirAt', nameAt', rfl⟩) before
  simp only [find_eq_ok_iff_findSome?, findSome?_eq_some_iff_index, find?_placesUnder,
    List.findSome?_eq_none_iff, find?_placesUnder_eq_none]
  refine ⟨i, dir, dirAt, ⟨j, name, nameAt, ⟨layout, place, first.file, fun flat => ?_⟩, ?_⟩, ?_⟩
  · exact refused ⟨i, j, .messages⟩ (.inr ⟨rfl, .inr ⟨rfl, rfl, flat⟩⟩) dirAt nameAt
  · intro j' sooner name' nameAt' layout'
    exact refused ⟨i, j', layout'⟩ (.inr ⟨rfl, .inl sooner⟩) dirAt nameAt'
  · intro i' sooner dir' dirAt' name' tried layout'
    obtain ⟨j', nameAt'⟩ := List.mem_iff_getElem?.1 tried
    exact refused ⟨i', j', layout'⟩ (.inl sooner) dirAt' nameAt'

theorem find_eq_error_iff {problem : Problem} :
    find tree dirs domain locale = .error problem ↔
      problem = .missingFile domain locale ∧
        ∀ (rank : Rank) p, rank.place? dirs domain locale = some p → tree.isFile p = false := by
  have nowhere : (places dirs domain locale).find? tree.isFile = none ↔
      ∀ (rank : Rank) p, rank.place? dirs domain locale = some p → tree.isFile p = false := by
    simp only [List.find?_eq_none, mem_places_iff, Bool.not_eq_true]
    exact ⟨fun refused rank p place => refused p ⟨rank, place⟩,
      fun refused p ⟨rank, place⟩ => refused rank p place⟩
  rw [← nowhere, find]
  cases (places dirs domain locale).find? tree.isFile <;> simp [eq_comm]

/-- Appended directories are not reached. -/
theorem find_append (found : find tree dirs domain locale = .ok path) :
    find tree (dirs ++ more) domain locale = .ok path := by
  rw [find_eq_ok_iff_findSome?] at found ⊢
  rw [List.findSome?_append, found]
  rfl

theorem Rank.Before.asymm {a b : Rank} (before : a.Before b) : ¬b.Before a := by
  intro after
  rcases before with less | ⟨_, less | ⟨_, first, -⟩⟩ <;>
    rcases after with sooner | ⟨_, sooner | ⟨_, -, last⟩⟩ <;> try omega
  cases first.symm.trans last

/-- Later files do not shadow the first one. -/
theorem First.shadow (first : First tree dirs domain locale rank path)
    (file : other.isFile path = true)
    (later : ∀ (rank' : Rank) p, rank'.place? dirs domain locale = some p → other.isFile p = true →
      tree.isFile p = true ∨ rank.Before rank') :
    First other dirs domain locale rank path where
  place := first.place
  file := file
  earlier rank' p place before := by
    refine Bool.eq_false_iff.2 fun stands => ?_
    rcases later rank' p place stands with stood | after
    · rw [first.earlier rank' p place before] at stood
      cases stood
    · exact before.asymm after

theorem find_congr (same : ∀ p ∈ places dirs domain locale, other.isFile p = tree.isFile p) :
    find other dirs domain locale = find tree dirs domain locale := by
  rw [find, find, List.find?_congr same]

/-- A search returns the file of the first rank and fails exactly if no rank has a file. The result
is stable under appended directories, under trees that change only later ranks, and under
directories at candidate paths. -/
theorem find_by_precedence (tree : Tree) (dirs : List Path) (domain locale : String) :
    (∀ path, find tree dirs domain locale = .ok path ↔
      ∃ rank, First tree dirs domain locale rank path) ∧
    (∀ problem, find tree dirs domain locale = .error problem ↔
      problem = .missingFile domain locale ∧
        ∀ (rank : Rank) p, rank.place? dirs domain locale = some p → tree.isFile p = false) ∧
    (∀ rank path, First tree dirs domain locale rank path →
      (∀ more, find tree (dirs ++ more) domain locale = .ok path) ∧
      ∀ other : Tree, other.isFile path = true →
        (∀ (later : Rank) p, later.place? dirs domain locale = some p → other.isFile p = true →
          tree.isFile p = true ∨ rank.Before later) →
        find other dirs domain locale = .ok path) ∧
    ∀ other : Tree,
      (∀ (rank : Rank) p, rank.place? dirs domain locale = some p →
        other.node? p = tree.node? p ∨
          other.node? p = some .directory ∧ tree.node? p = none) →
      find other dirs domain locale = find tree dirs domain locale := by
  refine ⟨fun path => ⟨exists_first, fun ⟨_, first⟩ => first.find⟩, fun problem => find_eq_error_iff,
    fun rank path first => ⟨fun more => find_append first.find,
      fun other file later => (first.shadow file later).find⟩,
    fun other alike => find_congr fun p member => ?_⟩
  obtain ⟨rank, place⟩ := mem_places_iff.1 member
  rcases alike rank p place with same | ⟨stands, free⟩
  · exact Tree.isFile_congr same
  · rw [Tree.isFile_eq_false (.inl stands), Tree.isFile_eq_false (.inr free)]

def standing (files directories : List Place) : Tree :=
  ⟨fun place => if place ∈ files then some (.file [])
    else if (files ++ directories).any place.isPrefixOf then some .directory else none⟩

/-- A file in the other layout and a directory at a territory path change nothing. -/
theorem find_by_precedence_brazilian :
    let tree := standing [["l", "pt", "LC_MESSAGES", "app.mo"]] []
    let more := standing [["l", "pt", "LC_MESSAGES", "app.mo"], ["l", "pt", "app.mo"]] []
    let barred := standing [["l", "pt", "LC_MESSAGES", "app.mo"]] [["l", "pt_BR", "app.mo"]]
    let found : Path := ⟨"/l/pt/LC_MESSAGES/app.mo"⟩
    First tree [⟨"/l"⟩] "app" "pt_BR" ⟨0, 1, .messages⟩ found ∧
      find tree [⟨"/l"⟩, ⟨"/m"⟩] "app" "pt_BR" = .ok found ∧
      find more [⟨"/l"⟩] "app" "pt_BR" = .ok found ∧
      find barred [⟨"/l"⟩] "app" "pt_BR" = .ok found := by
  intro tree more barred found
  obtain ⟨-, -, kept, ignored⟩ := find_by_precedence tree [⟨"/l"⟩] "app" "pt_BR"
  have first : First tree [⟨"/l"⟩] "app" "pt_BR" ⟨0, 1, .messages⟩ found := by decide +kernel
  obtain ⟨appended, shadowed⟩ := kept _ _ first
  have same := ignored barred (by decide +kernel)
  refine ⟨first, appended [⟨"/m"⟩], shadowed more (by decide +kernel) (by decide +kernel), ?_⟩
  rw [same]
  exact appended []

end Search
end MessageCatalog.Locale
