import MessageCatalog.Locale.Search

/-! Which rungs of a locale are searched. A search uses the ladder of the locale with hyphens
replaced, so of the proper rungs only the full name and those without hyphen. -/
namespace MessageCatalog.Locale

open Files

section Ladder

variable {mark : Char} {text name : List Char} {names : List (List Char)}

theorem mem_distinctNames : name ∈ distinctNames names ↔ name ∈ names ∧ name ≠ [] := by
  induction names with
  | nil => simp [distinctNames]
  | cons first rest ih =>
    rw [distinctNames]
    split
    · next empty =>
      rw [List.isEmpty_iff] at empty
      subst empty
      rw [ih, List.mem_cons]
      constructor
      · exact fun ⟨member, full⟩ => ⟨.inr member, full⟩
      · rintro ⟨same | member, full⟩
        · exact absurd same full
        · exact ⟨member, full⟩
    · next full =>
      rw [List.isEmpty_iff] at full
      by_cases same : name = first
      · subst same
        simp [full]
      · simp [ih, same]

theorem mem_ladder : name ∈ ladder text ↔ (name = text ∨ name ∈ (Name.ofText text).territorial ∨
    name ∈ (Name.ofText text).general) ∧ name ≠ [] := by
  rw [ladder, mem_distinctNames, List.mem_cons, List.mem_append]

theorem parted_eq_some_iff {before after : List Char} :
    parted mark text = (before, some after) ↔ text = before ++ mark :: after ∧ mark ∉ before := by
  rw [← Text.cut_eq_some_iff, parted]
  cases Text.cut mark text <;> simp [Prod.ext_iff]

theorem parted_eq_none_iff {before : List Char} :
    parted mark text = (before, none) ↔ text = before ∧ mark ∉ text := by
  rw [← Text.cut_eq_none_iff, parted]
  cases Text.cut mark text <;> simp

theorem parted_fst_subset (mark : Char) (text : List Char) : (parted mark text).1 ⊆ text := by
  cases h : parted mark text with
  | mk before after =>
    cases after with
    | none => rw [(parted_eq_none_iff.1 h).1]; exact List.Subset.refl _
    | some after => rw [(parted_eq_some_iff.1 h).1]; exact List.subset_append_left _ _

theorem mem_general {n : Name} (h : name ∈ n.general) :
    name = n.language ∨ ∃ m, n.modifier = some m ∧ name = n.language ++ '@' :: m := by
  obtain ⟨base, language, territory, codeset, modifier⟩ := n
  cases territory with
  | none => cases h
  | some territory =>
    cases modifier with
    | none => exact .inl (List.mem_singleton.1 h)
    | some modifier =>
      rcases List.mem_cons.1 h with longer | bare
      · exact .inr ⟨modifier, rfl, longer⟩
      · exact .inl (List.mem_singleton.1 bare)

end Ladder

section Underscores

variable {mark : Char} {text name : List Char}

theorem hyphen_notMem_withUnderscores (text : List Char) : '-' ∉ withUnderscores text := by
  intro member
  obtain ⟨c, -, same⟩ := List.mem_map.1 member
  split at same
  · cases same
  · next other => exact other same

theorem withUnderscores_eq_self (plain : '-' ∉ text) : withUnderscores text = text := by
  have each : ∀ c ∈ text, (if c = '-' then '_' else c) = c := by
    intro c member
    apply if_neg
    rintro rfl
    exact plain member
  exact (List.map_congr_left each).trans (List.map_id' text)

theorem withUnderscores_append (a b : List Char) :
    withUnderscores (a ++ b) = withUnderscores a ++ withUnderscores b :=
  List.map_append

theorem withUnderscores_cons (other : mark ≠ '-') (text : List Char) :
    withUnderscores (mark :: text) = mark :: withUnderscores text := by
  rw [withUnderscores, List.map_cons, if_neg other]
  rfl

theorem notMem_withUnderscores (absent : mark ∉ text) (apart : mark = '_' → '-' ∉ text) :
    mark ∉ withUnderscores text := by
  intro member
  obtain ⟨c, inside, same⟩ := List.mem_map.1 member
  split at same
  · next hyphen => exact apart same.symm (hyphen ▸ inside)
  · exact absent (same ▸ inside)

/-- Underscores keep the place of a mark, unless a hyphen before it becomes one. -/
theorem parted_withUnderscores (other : mark ≠ '-')
    (apart : mark = '_' → '-' ∉ (parted mark text).1) :
    parted mark (withUnderscores text) =
      (withUnderscores (parted mark text).1, (parted mark text).2.map withUnderscores) := by
  cases h : parted mark text with
  | mk before after =>
    rw [h] at apart
    cases after with
    | none =>
      obtain ⟨rfl, absent⟩ := parted_eq_none_iff.1 h
      exact parted_eq_none_iff.2 ⟨rfl, notMem_withUnderscores absent apart⟩
    | some after =>
      obtain ⟨rfl, absent⟩ := parted_eq_some_iff.1 h
      refine parted_eq_some_iff.2 ⟨?_, notMem_withUnderscores absent apart⟩
      rw [withUnderscores_append, withUnderscores_cons other]

/-- Underscores keep the parts of a locale, up to the base. -/
theorem ofText_withUnderscores (text : List Char) :
    let name := Name.ofText text
    Name.ofText (withUnderscores text) =
      { base := withUnderscores name.base
        language := (parted '_' (withUnderscores name.base)).1
        territory := (parted '_' (withUnderscores name.base)).2
        codeset := name.codeset.map withUnderscores
        modifier := name.modifier.map withUnderscores } := by
  have outer : parted '@' (withUnderscores text) = _ := parted_withUnderscores (by decide) nofun
  have inner : parted '.' (withUnderscores (parted '@' text).1) = _ :=
    parted_withUnderscores (by decide) nofun
  simp only [Name.ofText, outer, inner]

theorem territorial_withUnderscores (text : List Char) :
    (Name.ofText (withUnderscores text)).territorial =
      (Name.ofText text).territorial.map withUnderscores := by
  rw [ofText_withUnderscores]
  generalize Name.ofText text = n
  obtain ⟨base, language, territory, codeset, modifier⟩ := n
  cases codeset <;> cases modifier <;>
    simp [Name.territorial, withUnderscores_append, withUnderscores_cons]

theorem general_withUnderscores (plain : '-' ∉ (Name.ofText text).language) :
    (Name.ofText (withUnderscores text)).general =
      (Name.ofText text).general.map withUnderscores := by
  have parts : parted '_' (withUnderscores (Name.ofText text).base) =
      (withUnderscores (Name.ofText text).language,
        (Name.ofText text).territory.map withUnderscores) :=
    parted_withUnderscores (by decide) fun _ => plain
  rw [ofText_withUnderscores, parts]
  generalize Name.ofText text = n
  obtain ⟨base, language, territory, codeset, modifier⟩ := n
  cases territory <;> cases modifier <;>
    simp [Name.general, withUnderscores_append, withUnderscores_cons]

theorem hyphen_notMem_of_mem_ladder (h : name ∈ ladder (withUnderscores text)) : '-' ∉ name := by
  obtain ⟨rfl | territorial | general, -⟩ := mem_ladder.1 h
  · exact hyphen_notMem_withUnderscores text
  · rw [territorial_withUnderscores] at territorial
    obtain ⟨longer, -, rfl⟩ := List.mem_map.1 territorial
    exact hyphen_notMem_withUnderscores longer
  · rw [ofText_withUnderscores] at general
    have language : '-' ∉ (parted '_' (withUnderscores (Name.ofText text).base)).1 :=
      fun member => hyphen_notMem_withUnderscores _ (parted_fst_subset _ _ member)
    rcases mem_general general with rfl | ⟨m, known, rfl⟩
    · exact language
    · obtain ⟨modifier, -, rfl⟩ := Option.map_eq_some_iff.1 known
      simp [language, hyphen_notMem_withUnderscores]

theorem mem_ladder_withUnderscores (h : name ∈ ladder text) (plain : '-' ∉ name) :
    name ∈ ladder (withUnderscores text) := by
  obtain ⟨rfl | territorial | general, full⟩ := mem_ladder.1 h
  · rwa [withUnderscores_eq_self plain]
  · refine mem_ladder.2 ⟨.inr (.inl ?_), full⟩
    rw [territorial_withUnderscores, ← withUnderscores_eq_self plain]
    exact List.mem_map_of_mem territorial
  · have language : '-' ∉ (Name.ofText text).language := by
      intro member
      rcases mem_general general with rfl | ⟨m, -, rfl⟩
      · exact plain member
      · exact plain (List.mem_append_left _ member)
    refine mem_ladder.2 ⟨.inr (.inr ?_), full⟩
    rw [general_withUnderscores language, ← withUnderscores_eq_self plain]
    exact List.mem_map_of_mem general

/-- A search tries the full name and the rungs without hyphen. -/
theorem mem_steps_iff (h : name ∈ ladder text) : name ∈ steps text ↔ name = text ∨ '-' ∉ name := by
  rw [steps, mem_distinctNames, List.mem_cons]
  constructor
  · rintro ⟨same | lower, -⟩
    · exact .inl same
    · exact .inr (hyphen_notMem_of_mem_ladder lower)
  · intro tried
    refine ⟨?_, (mem_ladder.1 h).2⟩
    rcases tried with same | plain
    · exact .inl same
    · exact .inr (mem_ladder_withUnderscores h plain)

end Underscores

section Search

variable {tree : Tree} {dirs : List Path} {domain locale name variant : String} {dir path : Path}

theorem mem_map_ofList {names : List (List Char)} :
    name ∈ names.map String.ofList ↔ name.toList ∈ names := by
  constructor
  · intro member
    obtain ⟨chars, inside, rfl⟩ := List.mem_map.1 member
    rwa [String.toList_ofList]
  · intro inside
    exact List.mem_map.2 ⟨name.toList, inside, String.ofList_toList⟩

theorem mem_candidates_iff (h : variant ∈ variants locale) :
    variant ∈ candidates locale ↔ variant = locale ∨ '-' ∉ variant.toList := by
  rw [candidates, mem_map_ofList, mem_steps_iff (mem_map_ofList.1 h), String.toList_inj]

theorem mem_places (searched : dir ∈ dirs) (tried : name ∈ candidates locale)
    (place : path ∈ placesUnder dir domain name) : path ∈ places dirs domain locale :=
  List.mem_flatMap.2 ⟨dir, searched, List.mem_flatMap.2 ⟨name, tried, place⟩⟩

/-- A file at a candidate path is found, unless an earlier one is. -/
theorem find_of_isFile (place : path ∈ places dirs domain locale) (file : tree.isFile path = true) :
    ∃ found, find tree dirs domain locale = .ok found ∧
      ((∀ other ∈ places dirs domain locale, tree.isFile other = true → other = path) →
        found = path) := by
  rw [find]
  cases h : (places dirs domain locale).find? tree.isFile with
  | none => exact absurd file (List.find?_eq_none.1 h path place)
  | some found =>
    refine ⟨found, rfl, fun only => ?_⟩
    exact only found (List.mem_of_find?_eq_some h) (List.find?_some h)

/-- Of the fallback names of a locale exactly the full one and those without hyphen are searched: a
catalog there is found or one of higher precedence, and the others are passed over. -/
theorem variant_searched_iff (locale variant : String) (h : variant ∈ variants locale) :
    (variant ∈ candidates locale ↔ variant = locale ∨ '-' ∉ variant.toList) ∧
    (variant = locale ∨ '-' ∉ variant.toList →
      ∀ (tree : Tree) (dirs : List Path) (domain : String),
        ∀ dir ∈ dirs, ∀ path ∈ placesUnder dir domain variant, tree.isFile path = true →
          ∃ found, find tree dirs domain locale = .ok found ∧
            ((∀ other ∈ places dirs domain locale, tree.isFile other = true → other = path) →
              found = path)) := by
  refine ⟨mem_candidates_iff h, fun tried tree dirs domain dir searched path place file => ?_⟩
  exact find_of_isFile (mem_places searched ((mem_candidates_iff h).2 tried) place) file

def installed (name : String) : Tree :=
  (Tree.empty.addFile? ⟨"/l/" ++ name ++ "/LC_MESSAGES/app.mo"⟩ []).getD Tree.empty

theorem variant_searched_valencian :
    "es@valencia" ∈ variants "es_ES.UTF-8@valencia" ∧
      "es@valencia" ∈ candidates "es_ES.UTF-8@valencia" ∧
      find (installed "es@valencia") [⟨"/l"⟩] "app" "es_ES.UTF-8@valencia" =
        .ok ⟨"/l/es@valencia/LC_MESSAGES/app.mo"⟩ := by
  have listed : "es@valencia" ∈ variants "es_ES.UTF-8@valencia" := by decide +kernel
  have plain : "es@valencia" = "es_ES.UTF-8@valencia" ∨ '-' ∉ "es@valencia".toList := by
    decide +kernel
  obtain ⟨searched, finds⟩ := variant_searched_iff "es_ES.UTF-8@valencia" "es@valencia" listed
  obtain ⟨found, ok, only⟩ := finds plain (installed "es@valencia") [⟨"/l"⟩] "app" ⟨"/l"⟩ (by decide)
    ⟨"/l/es@valencia/LC_MESSAGES/app.mo"⟩ (by decide +kernel) (by decide +kernel)
  exact ⟨listed, searched.2 plain, ok.trans (congrArg _ (only (by decide +kernel)))⟩

/-- The codeset has a hyphen, so a catalog under that fallback name is not found. -/
theorem codeset_fallback_not_searched :
    "es_ES.UTF-8" ∈ variants "es_ES.UTF-8@valencia" ∧
      "es_ES.UTF-8" ∉ candidates "es_ES.UTF-8@valencia" ∧
      (installed "es_ES.UTF-8").isFile ⟨"/l/es_ES.UTF-8/LC_MESSAGES/app.mo"⟩ = true ∧
      find (installed "es_ES.UTF-8") [⟨"/l"⟩] "app" "es_ES.UTF-8@valencia" =
        .error (.missingFile "app" "es_ES.UTF-8@valencia") := by
  have nowhere : (places [⟨"/l"⟩] "app" "es_ES.UTF-8@valencia").find?
      (installed "es_ES.UTF-8").isFile = none := by decide +kernel
  refine ⟨by decide +kernel, by decide +kernel, by decide +kernel, ?_⟩
  rw [find, nowhere]

end Search
end MessageCatalog.Locale
