import MessageCatalog.Locale.Environment
import MessageCatalog.Proofs.Files.Below
import MessageCatalog.Proofs.Locale.Descent
import MessageCatalog.Proofs.Locale.Precedence

/-! Whether a search stays below its directories. Locale and domain are joined as they come, so they
lead out if they start at the root or go up. The text before a modifier counts where a codeset makes
it a candidate. -/
namespace MessageCatalog.Locale

open Files

def Climbs (text : List Char) : Prop := ['.', '.'] ∈ text.splitOn '/'

instance (text : List Char) : Decidable (Climbs text) :=
  inferInstanceAs (Decidable (_ ∈ _))

/-- Leads on from any directory. -/
def Stays (text : List Char) : Prop := text.head? ≠ some '/' ∧ ¬Climbs text

instance (text : List Char) : Decidable (Stays text) := inferInstanceAs (Decidable (_ ∧ _))

def unmodified (locale : String) : List Char := (parted '@' locale.toList).1

/-- Domain and locale stay below any directory, judged by their texts. -/
structure Confined (domain locale : String) : Prop where
  file : Path.Onward (domain ++ ".mo")
  name : Path.Onward locale
  bare : ¬Climbs (unmodified locale)

instance (domain locale : String) : Decidable (Confined domain locale) :=
  decidable_of_iff
    (Path.Onward (domain ++ ".mo") ∧ Path.Onward locale ∧ ¬Climbs (unmodified locale))
    ⟨fun ⟨file, name, bare⟩ => ⟨file, name, bare⟩, fun ⟨file, name, bare⟩ => ⟨file, name, bare⟩⟩

section Climbing

variable {text front rest : List Char} {mark : Char}

theorem not_climbs_of_undotted (undotted : '.' ∉ text) : ¬Climbs text := fun climbs =>
  undotted (Text.subset_of_mem_splitOn climbs List.mem_cons_self)

theorem underscore_eq_slash_iff (c : Char) : (if c = '-' then '_' else c) = '/' ↔ c = '/' := by
  split <;> simp_all

theorem climbs_withUnderscores : Climbs (withUnderscores text) ↔ Climbs text := by
  have dots {part : List Char} : withUnderscores part = ['.', '.'] ↔ part = ['.', '.'] := by
    constructor
    · intro same
      have hyphen : '-' ∉ part := fun inside => by
        have mapped : '_' ∈ withUnderscores part := List.mem_map.2 ⟨'-', inside, rfl⟩
        simp [same] at mapped
      rwa [withUnderscores_eq_self hyphen] at same
    · rintro rfl
      rfl
  rw [Climbs, withUnderscores, Text.splitOn_map underscore_eq_slash_iff, List.mem_map]
  constructor
  · rintro ⟨part, member, same⟩
    rwa [dots.1 same] at member
  · exact fun climbs => ⟨_, climbs, rfl⟩

theorem head?_withUnderscores :
    (withUnderscores text).head? = some '/' ↔ text.head? = some '/' := by
  rw [withUnderscores, List.head?_map]
  simp [underscore_eq_slash_iff]

theorem stays_withUnderscores : Stays (withUnderscores text) ↔ Stays text := by
  rw [Stays, head?_withUnderscores.ne, climbs_withUnderscores, Stays]

/-- A part before a mark never goes up if it has no dots; a part after it then goes up after any
text. -/
theorem climbs_of_marked (slash : mark ≠ '/') (dot : mark ≠ '.') (undotted : '.' ∉ front)
    (climbs : Climbs (front ++ mark :: rest)) (before : List Char) :
    Climbs (before ++ mark :: rest) := by
  obtain ⟨first, parts, back⟩ := Text.splitOn_cons slash rest
  have glued (front : List Char) :
      ∃ init last, front.splitOn '/' = init ++ [last] ∧
        (front ++ mark :: rest).splitOn '/' = init ++ (last ++ mark :: first) :: parts := by
    obtain ⟨init, last, split⟩ :=
      (List.eq_nil_or_concat' (front.splitOn '/')).resolve_left (List.splitOn_ne_nil '/' front)
    exact ⟨init, last, split, Text.splitOn_append_cons split back⟩
  obtain ⟨init, last, own, split⟩ := glued front
  obtain ⟨init', last', -, split'⟩ := glued before
  rw [Climbs, split] at climbs
  rw [Climbs, split']
  rcases List.mem_append.1 climbs with early | late
  · have parted : Climbs front := by rw [Climbs, own]; exact List.mem_append_left _ early
    exact absurd parted (not_climbs_of_undotted undotted)
  rcases List.mem_cons.1 late with same | later
  · have inside : mark ∈ ['.', '.'] := same ▸ by simp
    simp [dot] at inside
  · exact List.mem_append_right _ (List.mem_cons_of_mem _ later)

end Climbing

section Names

variable {text name front : List Char} {modifier : Option (List Char)} {locale : String}

/-- A rung begins the locale, with or without the modifier; with dots it is all that precedes the
modifier. -/
theorem front_of_mem_ladder (member : name ∈ ladder text) :
    ∃ front modifier, name = front ++ led '@' modifier ∧ front <+: text ∧
      (modifier = none ∨ modifier = (parted '@' text).2) ∧
      ('.' ∉ front ∨ front = (parted '@' text).1) := by
  rw [ladder_eq] at member
  obtain ⟨lower, falls, rfl⟩ := Name.falls_of_mem_rungs (List.mem_filter.1 member).1
  have parts := Name.parted_ofText text
  have outer := (parted_spec '@' text).1
  have inner := (parted_spec '.' (parted '@' text).1).1
  have bare : (parted '@' text).1 <+: text := by
    conv => rhs; rw [outer]
    exact List.prefix_append _ _
  have base : (Name.ofText text).base <+: (parted '@' text).1 := by
    conv => rhs; rw [inner]
    exact List.prefix_append _ _
  cases falls with
  | @territorial codeset modifier c m =>
    rcases c with rfl | rfl
    · exact ⟨_, modifier, by simp [Name.text, led], base.trans bare, m, .inl parts.dot_notMem⟩
    · exact ⟨_, modifier, by rw [inner]; rfl, bare, m, .inr rfl⟩
  | @general modifier known m =>
    have language : (Name.ofText text).language <+: (Name.ofText text).base :=
      parts.base_eq ▸ List.prefix_append _ _
    exact ⟨_, modifier, by simp [Name.text, led], language.trans (base.trans bare), m,
      .inl fun inside => parts.dot_notMem (language.subset inside)⟩

theorem relative_of_front (before : front <+: text) (relative : text.head? ≠ some '/') :
    (front ++ led '@' modifier).head? ≠ some '/' := by
  cases front with
  | nil => cases modifier <;> simp [led]
  | cons c front =>
    obtain ⟨rest, rfl⟩ := before
    simpa using relative

theorem relative_of_mem_steps (relative : text.head? ≠ some '/') (member : name ∈ steps text) :
    name.head? ≠ some '/' := by
  rcases List.mem_cons.1 (mem_distinctNames.1 member).1 with rfl | rung
  · exact relative
  · obtain ⟨front, modifier, rfl, before, -⟩ := front_of_mem_ladder rung
    exact relative_of_front before (head?_withUnderscores.not.2 relative)

/-- No rung leads out if the locale does not, with and without its modifier. -/
theorem stays_of_mem_ladder (stays : Stays text) (bare : ¬Climbs (parted '@' text).1)
    (member : name ∈ ladder text) : Stays name := by
  obtain ⟨front, modifier, rfl, before, kept, dots⟩ := front_of_mem_ladder member
  refine ⟨relative_of_front before stays.1, fun climbs => ?_⟩
  cases modifier with
  | none =>
    rw [led, List.append_nil] at climbs
    rcases dots with undotted | rfl
    · exact not_climbs_of_undotted undotted climbs
    · exact bare climbs
  | some modifier =>
    have known := kept.resolve_left (Option.some_ne_none modifier)
    have whole := (parted_eq_some_iff.1 (Prod.ext rfl known.symm)).1
    rcases dots with undotted | rfl
    · exact stays.2 (whole ▸ climbs_of_marked (by decide) (by decide) undotted climbs _)
    · exact stays.2 (whole ▸ climbs)

theorem onward_iff {text : String} : Path.Onward text ↔ Stays text.toList := by
  have steps : ".." ∈ (Files.Path.mk text).steps ↔ Climbs text.toList := mem_map_ofList
  rw [Climbs] at steps
  exact ⟨fun onward => ⟨onward.relative, fun climbs => onward.forward (steps.2 climbs)⟩,
    fun ⟨relative, level⟩ => ⟨relative, fun climbs => level (steps.1 climbs)⟩⟩

/-- A dot before the modifier marks a codeset, so the text before it is a rung. -/
theorem unmodified_mem_ladder {modifier : List Char} (dotted : '.' ∈ (parted '@' text).1)
    (known : (parted '@' text).2 = some modifier) : (parted '@' text).1 ∈ ladder text := by
  obtain ⟨codeset, c⟩ : ∃ codeset, (Name.ofText text).codeset = some codeset := by
    refine Option.ne_none_iff_exists'.1 fun none => ?_
    exact (parted_eq_none_iff.1 (Prod.ext rfl none)).2 dotted
  have inner : (parted '@' text).1 = (Name.ofText text).base ++ '.' :: codeset :=
    (parted_eq_some_iff.1 (Prod.ext rfl c)).1
  refine mem_ladder.2 ⟨.inr (.inl ?_), List.ne_nil_of_mem dotted⟩
  have m : (Name.ofText text).modifier = some modifier := known
  simp only [Name.territorial, c, m, inner]
  exact List.mem_cons_of_mem _ List.mem_cons_self

theorem stays_of_mem_steps_iff :
    (∀ name ∈ steps text, Stays name) ↔ Stays text ∧ ¬Climbs (parted '@' text).1 := by
  have parts : parted '@' (withUnderscores text) = _ := parted_withUnderscores (by decide) nofun
  simp only [steps, mem_distinctNames, List.mem_cons]
  constructor
  · intro stays
    cases empty : text with
    | nil => exact ⟨by decide, by decide⟩
    | cons c rest =>
      rw [← empty]
      have own := stays text ⟨.inl rfl, by simp [empty]⟩
      refine ⟨own, fun climbs => ?_⟩
      cases known : (parted '@' text).2 with
      | none =>
        have whole := (parted_eq_none_iff.1 (Prod.ext rfl known)).1
        exact own.2 (whole ▸ climbs)
      | some modifier =>
        have lower := climbs_withUnderscores.2 climbs
        have dotted : '.' ∈ withUnderscores (parted '@' text).1 :=
          not_not.1 fun undotted => not_climbs_of_undotted undotted lower
        have rung : (parted '@' (withUnderscores text)).1 ∈ ladder (withUnderscores text) :=
          unmodified_mem_ladder (by rwa [parts]) (by rw [parts, known]; rfl)
        rw [parts] at rung
        exact (stays _ ⟨.inr rung, List.ne_nil_of_mem dotted⟩).2 lower
  · rintro ⟨own, bare⟩ name ⟨rfl | rung, -⟩
    · exact own
    · refine stays_of_mem_ladder (stays_withUnderscores.2 own) ?_ rung
      rw [parts]
      exact climbs_withUnderscores.not.2 bare

/-- All names tried for a locale lead on exactly if the locale does, with and without its
modifier. -/
theorem candidates_onward_iff :
    (∀ name ∈ candidates locale, Path.Onward name) ↔
      Path.Onward locale ∧ ¬Climbs (unmodified locale) := by
  simp only [candidates, List.forall_mem_map, onward_iff, String.toList_ofList]
  exact stays_of_mem_steps_iff

end Names

section Places

variable {dir path : Path} {dirs : List Path} {domain locale name : String} {layout : Layout}
  {tree : Tree}

theorem file_names_ne (domain : String) : (Files.Path.mk (domain ++ ".mo")).names ≠ [] := by
  obtain ⟨init, last, split⟩ := (List.eq_nil_or_concat' (domain.toList.splitOn '/')).resolve_left
    (List.splitOn_ne_nil '/' domain.toList)
  have glued : (domain.toList ++ ['.', 'm', 'o']).splitOn '/' = init ++ [last ++ ['.', 'm', 'o']] :=
    Text.splitOn_append split (by decide)
  have steps : (Files.Path.mk (domain ++ ".mo")).steps =
      init.map String.ofList ++ [String.ofList last ++ ".mo"] := by
    simp [Path.steps, glued]
  have long : 1 < (String.ofList last ++ ".mo").length := by
    rw [String.length_append, show ".mo".length = 3 from rfl]
    omega
  have named : staysHere (String.ofList last ++ ".mo") = false := by
    refine Bool.or_eq_false_iff.2 ⟨beq_eq_false_iff_ne.2 fun same => ?_,
      beq_eq_false_iff_ne.2 fun same => ?_⟩ <;> rw [same] at long <;> exact absurd long (by decide)
  have member : String.ofList last ++ ".mo" ∈ (Files.Path.mk (domain ++ ".mo")).names :=
    List.mem_filter.2 ⟨by simp [steps], by simp [named]⟩
  exact List.ne_nil_of_mem member

def Layout.between : Layout → List String
  | messages => ["LC_MESSAGES"]
  | flat => []

theorem names_place (first : Path.Relative name) (last : Path.Relative (domain ++ ".mo")) :
    (layout.place dir domain name).names =
      dir.names ++ ((Files.Path.mk name).names ++ layout.between ++
        (Files.Path.mk (domain ++ ".mo")).names) := by
  have middle : Path.Relative "LC_MESSAGES" := by decide
  have between : (Files.Path.mk "LC_MESSAGES").names = ["LC_MESSAGES"] := by decide
  cases layout <;>
    simp only [Layout.place, Layout.between, Path.names_join, first, middle, last, between,
      List.append_assoc, List.append_nil]

theorem isAbsolute_place (last : Path.Relative (domain ++ ".mo")) :
    (layout.place dir domain name).IsAbsolute ↔ (dir.join name).IsAbsolute := by
  have middle : Path.Relative "LC_MESSAGES" := by decide
  cases layout <;> simp only [Layout.place, Path.isAbsolute_join, middle, last]

/-- A place is below its directory exactly if name and domain lead on. -/
theorem place_below_iff
    (applies : dir.IsAbsolute → Path.Relative name ∧ Path.Relative (domain ++ ".mo")) :
    (layout.place dir domain name).Below dir ↔
      Path.Onward name ∧ Path.Onward (domain ++ ".mo") := by
  -- The root of the place is that of the directory only where both texts are relative.
  have relative (below : (layout.place dir domain name).Below dir) :
      Path.Relative name ∧ Path.Relative (domain ++ ".mo") := by
    by_cases root : dir.IsAbsolute
    · exact applies root
    · have last : Path.Relative (domain ++ ".mo") := by
        intro absolute
        have place : layout.place dir domain name = ⟨domain ++ ".mo"⟩ := by
          cases layout <;> exact Path.join_absolute absolute
        exact root (below.1.1 (place ▸ absolute))
      have joined := below.1.not.2 root
      rw [isAbsolute_place last] at joined
      exact ⟨fun absolute => joined (Path.join_absolute absolute ▸ absolute), last⟩
  constructor
  · intro below
    obtain ⟨first, last⟩ := relative below
    obtain ⟨-, rest, -, level, names⟩ := below
    rw [names_place first last, List.append_cancel_left_eq] at names
    rw [← names] at level
    simp only [List.mem_append, not_or, Path.up_mem_names] at level
    exact ⟨⟨first, level.1.1⟩, ⟨last, level.2⟩⟩
  · rintro ⟨⟨first, up⟩, last, up'⟩
    refine ⟨(isAbsolute_place last).trans (Path.isAbsolute_join first), _, ?_, ?_,
      names_place first last⟩
    · exact List.append_ne_nil_of_right_ne_nil _ (file_names_ne domain)
    · have between : ".." ∉ layout.between := by cases layout <;> decide
      simp only [List.mem_append, not_or, Path.up_mem_names]
      exact ⟨⟨up, between⟩, up'⟩

/-- If domain or locale lead out, some tried name shows it. -/
theorem exists_astray (full : locale ≠ "") (loose : ¬Confined domain locale) :
    ∃ name ∈ candidates locale, ¬(Path.Onward name ∧ Path.Onward (domain ++ ".mo")) := by
  by_cases file : Path.Onward (domain ++ ".mo")
  · have names : ¬∀ name ∈ candidates locale, Path.Onward name := fun onward =>
      have ⟨own, bare⟩ := candidates_onward_iff.1 onward
      loose ⟨file, own, bare⟩
    obtain ⟨name, tried, out⟩ : ∃ name ∈ candidates locale, ¬Path.Onward name := by
      simpa using names
    exact ⟨name, tried, fun both => out both.1⟩
  · have own : locale ∈ candidates locale := by
      refine mem_map_ofList.2 (mem_distinctNames.2 ⟨List.mem_cons_self, ?_⟩)
      simpa using full
    exact ⟨locale, own, fun both => file both.2⟩

/-- Searches with a confined domain and locale find only files below the listed directories. Any
other pair looks, from every directory, at some place that is not below it and finds a file there if
no other place has one; for absolute directories this is stated for relative texts only. -/
theorem found_below_of_confined (domain locale : String) :
    (Confined domain locale → ∀ tree dirs path, find tree dirs domain locale = .ok path →
      ∃ dir ∈ dirs, path.Below dir) ∧
    (locale ≠ "" → ¬Confined domain locale → ∀ dir : Path,
      (dir.IsAbsolute → Path.Relative locale ∧ Path.Relative (domain ++ ".mo")) →
      ∃ path ∈ places [dir] domain locale, ¬path.Below dir ∧
        ∀ tree : Tree, tree.isFile path = true →
          (∀ other ∈ places [dir] domain locale, tree.isFile other = true → other = path) →
          find tree [dir] domain locale = .ok path) := by
  constructor
  · intro confined tree dirs path found
    obtain ⟨rank, first⟩ := exists_first found
    obtain ⟨dir, name, dirAt, nameAt, rfl⟩ := place?_eq_some_iff.1 first.place
    have onward := candidates_onward_iff.2 ⟨confined.name, confined.bare⟩ name
      (List.mem_of_getElem? nameAt)
    exact ⟨dir, List.mem_of_getElem? dirAt,
      (place_below_iff fun _ => ⟨onward.relative, confined.file.relative⟩).2 ⟨onward, confined.file⟩⟩
  · intro full loose dir applies
    obtain ⟨name, tried, astray⟩ := exists_astray full loose
    have relative (root : dir.IsAbsolute) :
        Path.Relative name ∧ Path.Relative (domain ++ ".mo") :=
      ⟨relative_of_mem_steps (applies root).1 (mem_map_ofList.1 tried), (applies root).2⟩
    have place : Layout.flat.place dir domain name ∈ places [dir] domain locale :=
      mem_places List.mem_cons_self tried (List.mem_cons_of_mem _ List.mem_cons_self)
    refine ⟨_, place, (place_below_iff relative).not.2 astray, fun tree file only => ?_⟩
    obtain ⟨found, ok, first⟩ := find_of_isFile place file
    rw [ok, first only]

/-- A confined search that falls back, and one that leaves an absolute directory. -/
theorem found_below_of_confined_latin :
    let tree := standing [["l", "sr", "LC_MESSAGES", "app.mo"], ["x", "app.mo"]] []
    let inside : Path := ⟨"/l/sr/LC_MESSAGES/app.mo"⟩
    Confined "app" "sr_RS.UTF-8@latin" ∧
      find tree [⟨"/l"⟩] "app" "sr_RS.UTF-8@latin" = .ok inside ∧ inside.Below ⟨"/l"⟩ ∧
      ¬Confined "app" "../x" ∧
      ∃ path ∈ places [⟨"/l"⟩] "app" "../x", ¬path.Below ⟨"/l"⟩ := by
  intro tree inside
  have confined : Confined "app" "sr_RS.UTF-8@latin" := by decide +kernel
  have loose : ¬Confined "app" "../x" := by decide +kernel
  have first : First tree [⟨"/l"⟩] "app" "sr_RS.UTF-8@latin" ⟨0, 6, .messages⟩ inside := by
    decide +kernel
  obtain ⟨dir, searched, below⟩ :=
    (found_below_of_confined "app" "sr_RS.UTF-8@latin").1 confined _ _ _ first.find
  obtain rfl := List.mem_singleton.1 searched
  obtain ⟨path, place, out, -⟩ := (found_below_of_confined "app" "../x").2 (by decide) loose ⟨"/l"⟩
    (by decide +kernel)
  exact ⟨confined, first.find, below, loose, path, place, out⟩

/-- Files outside the only directory are found for a locale that goes up, for one that starts at the
root, and for one that goes up without its modifier. -/
theorem search_leaves_directory :
    let tree := standing [["x", "LC_MESSAGES", "app.mo"], ["LC_MESSAGES", "app.mo"]] [["l"]]
    (Environment.mk fun name => if name = "LANG" then some "../x" else none).locale = "../x" ∧
      ∀ found ∈ [("../x", "l/../x/LC_MESSAGES/app.mo"), ("/x", "/x/LC_MESSAGES/app.mo"),
          ("..@m", "l/../LC_MESSAGES/app.mo")],
        find tree [⟨"l"⟩] "app" found.1 = .ok ⟨found.2⟩ ∧
          ∀ dir ∈ [Files.Path.mk "l"], ¬(Files.Path.mk found.2).Below dir := by
  decide +kernel

end Places

end MessageCatalog.Locale
