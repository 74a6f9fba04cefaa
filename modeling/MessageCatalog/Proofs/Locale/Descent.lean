import Mathlib.Data.List.Nodup
import MessageCatalog.Proofs.Locale.Fallbacks

/-! Candidates of candidates. A candidate name is itself a locale, and its candidates are a sublist
of those of the full locale. -/
namespace MessageCatalog.Locale

section Distinct

variable {names : List (List Char)}

theorem nodup_distinctNames (names : List (List Char)) : (distinctNames names).Nodup := by
  induction names with
  | nil => exact List.nodup_nil
  | cons first rest ih =>
    rw [distinctNames]
    split
    · exact ih
    · exact List.nodup_cons.2 ⟨by simp, ih.filter _⟩

theorem distinctNames_of_nodup (distinct : names.Nodup) :
    distinctNames names = names.filter (!·.isEmpty) := by
  induction names with
  | nil => rfl
  | cons first rest ih =>
    obtain ⟨absent, distinct⟩ := List.nodup_cons.1 distinct
    rw [distinctNames, ih distinct]
    cases empty : first.isEmpty with
    | true => simp [empty]
    | false =>
      have others : (rest.filter (!·.isEmpty)).filter (· != first) = rest.filter (!·.isEmpty) := by
        refine List.filter_eq_self.2 fun name member => ?_
        have other : name ≠ first := fun same => absent (same ▸ (List.mem_filter.1 member).1)
        simpa using other
      simp [empty, others]

end Distinct

def led (mark : Char) : Option (List Char) → List Char
  | none => []
  | some part => mark :: part

theorem parted_eq_iff {mark : Char} {text before : List Char} {after : Option (List Char)} :
    parted mark text = (before, after) ↔ text = before ++ led mark after ∧ mark ∉ before := by
  cases after with
  | none =>
    rw [parted_eq_none_iff, led, List.append_nil]
    exact and_congr_right fun same => by rw [same]
  | some after => exact parted_eq_some_iff

theorem parted_spec (mark : Char) (text : List Char) :
    text = (parted mark text).1 ++ led mark (parted mark text).2 ∧ mark ∉ (parted mark text).1 :=
  parted_eq_iff.1 (Prod.eta (parted mark text)).symm

namespace Name

def text (n : Name) : List Char := n.base ++ led '.' n.codeset ++ led '@' n.modifier

structure Parted (n : Name) : Prop where
  at_notMem : '@' ∉ n.base
  dot_notMem : '.' ∉ n.base
  codeset : '@' ∉ led '.' n.codeset
  territory : parted '_' n.base = (n.language, n.territory)

variable {n lower : Name} {text name : List Char}

theorem ofText_text (h : n.Parted) : ofText n.text = n := by
  have outer : parted '@' n.text = (n.base ++ led '.' n.codeset, n.modifier) :=
    parted_eq_iff.2 ⟨rfl, by simp [h.at_notMem, h.codeset]⟩
  have inner : parted '.' (n.base ++ led '.' n.codeset) = (n.base, n.codeset) :=
    parted_eq_iff.2 ⟨rfl, h.dot_notMem⟩
  simp [ofText, outer, inner, h.territory]

theorem text_ofText (text : List Char) : (ofText text).text = text := by
  have outer := parted_spec '@' text
  have inner := parted_spec '.' (parted '@' text).1
  exact ((congrArg (· ++ _) inner.1).symm.trans outer.1.symm)

theorem parted_ofText (text : List Char) : (ofText text).Parted where
  at_notMem := fun member => (parted_spec '@' text).2 (parted_fst_subset _ _ member)
  dot_notMem := (parted_spec '.' (parted '@' text).1).2
  codeset := by
    have outer := parted_spec '@' text
    have inner := parted_spec '.' (parted '@' text).1
    rw [inner.1] at outer
    exact fun member => outer.2 (List.mem_append_right _ member)
  territory := rfl

theorem Parted.base_eq (h : n.Parted) : n.base = n.language ++ led '_' n.territory :=
  (parted_eq_iff.1 h.territory).1

/-- Most specific first. -/
def rungs (n : Name) : List (List Char) := n.text :: (n.territorial ++ n.general)

/-- Language, territory, optional codeset and modifier, or language and optional modifier. -/
inductive Falls (n : Name) : Name → Prop
  | territorial {codeset modifier : Option (List Char)} (c : codeset = none ∨ codeset = n.codeset)
      (m : modifier = none ∨ modifier = n.modifier) :
      Falls n { n with codeset := codeset, modifier := modifier }
  | general {modifier : Option (List Char)} (known : n.territory.isSome = true)
      (m : modifier = none ∨ modifier = n.modifier) :
      Falls n ⟨n.language, n.language, none, none, modifier⟩

theorem falls_of_mem_rungs (member : name ∈ n.rungs) : ∃ lower, n.Falls lower ∧ lower.text = name := by
  rcases List.mem_cons.1 member with rfl | below
  · exact ⟨n, .territorial (.inr rfl) (.inr rfl), rfl⟩
  rcases List.mem_append.1 below with kept | dropped
  · cases c : n.codeset <;> cases m : n.modifier <;>
      simp only [Name.territorial, c, m, List.mem_cons, List.not_mem_nil, or_false] at kept
    case none.some | some.none =>
      exact ⟨_, .territorial (.inl rfl) (.inl rfl), by simp [Name.text, led, kept]⟩
    case some.some codeset modifier =>
      rcases kept with rfl | rfl | rfl
      · exact ⟨_, .territorial (.inl rfl) (.inr rfl), by simp [Name.text, led, m]⟩
      · exact ⟨_, .territorial (.inr rfl) (.inl rfl), by simp [Name.text, led, c]⟩
      · exact ⟨_, .territorial (.inl rfl) (.inl rfl), by simp [Name.text, led]⟩
  · have known : n.territory.isSome = true := by
      cases t : n.territory with
      | none => simp [Name.general, t] at dropped
      | some territory => rfl
    rcases mem_general dropped with rfl | ⟨modifier, m, rfl⟩
    · exact ⟨_, .general known (.inl rfl), by simp [Name.text, led]⟩
    · exact ⟨_, .general known (.inr rfl), by simp [Name.text, led, m]⟩

theorem Parted.of_falls (h : n.Parted) (falls : n.Falls lower) : lower.Parted := by
  cases falls with
  | territorial c m =>
    refine ⟨h.at_notMem, h.dot_notMem, ?_, h.territory⟩
    rcases c with rfl | rfl
    · simp [led]
    · exact h.codeset
  | general known m =>
    have language : n.language ⊆ n.base := h.base_eq ▸ List.subset_append_left _ _
    exact ⟨fun member => h.at_notMem (language member), fun member => h.dot_notMem (language member),
      by simp [led], parted_eq_iff.2 ⟨by simp [led], (parted_eq_iff.1 h.territory).2⟩⟩

section Sublists

variable {codeset modifier : Option (List Char)}

theorem territorial_sublist (c : codeset = none ∨ codeset = n.codeset)
    (m : modifier = none ∨ modifier = n.modifier) :
    let lower := { n with codeset := codeset, modifier := modifier }
    (lower.text :: lower.territorial).Sublist (n.text :: n.territorial) := by
  rcases c with rfl | rfl <;> rcases m with rfl | rfl <;> cases c : n.codeset <;>
    cases m : n.modifier <;> simp [Name.text, Name.territorial, led, c, m]

theorem general_sublist (m : modifier = none ∨ modifier = n.modifier) :
    { n with codeset := codeset, modifier := modifier }.general.Sublist n.general := by
  rcases m with rfl | rfl <;> cases t : n.territory <;> cases m : n.modifier <;>
    simp [Name.general, t, m]

theorem rungs_language (known : n.territory.isSome = true)
    (m : modifier = none ∨ modifier = n.modifier) :
    (rungs ⟨n.language, n.language, none, none, modifier⟩).Sublist n.general := by
  obtain ⟨territory, t⟩ := Option.isSome_iff_exists.1 known
  rcases m with rfl | rfl <;> cases m : n.modifier <;>
    simp [rungs, Name.text, Name.territorial, Name.general, led, t, m]

/-- Rungs of a rung are among the rungs of the name, in the same order. -/
theorem rungs_sublist (falls : n.Falls lower) : lower.rungs.Sublist n.rungs := by
  cases falls with
  | territorial c m => exact (territorial_sublist c m).append (general_sublist m)
  | general known m =>
    have general : n.general.Sublist (n.text :: n.territorial ++ n.general) :=
      List.sublist_append_right _ _
    exact (rungs_language known m).trans general

end Sublists

theorem nodup_rungs (h : n.Parted) : n.rungs.Nodup := by
  have base := h.base_eq
  obtain ⟨base, language, territory, codeset, modifier⟩ := n
  cases territory <;> cases codeset <;> cases modifier <;>
    simp_all [rungs, Name.text, Name.territorial, Name.general, led]

end Name

section Ladders

variable {text name : List Char}

theorem ladder_eq (text : List Char) :
    ladder text = (Name.ofText text).rungs.filter (!·.isEmpty) := by
  have rungs : text :: ((Name.ofText text).territorial ++ (Name.ofText text).general) =
      (Name.ofText text).rungs := by
    rw [Name.rungs, Name.text_ofText]
  rw [ladder, ← distinctNames_of_nodup (Name.nodup_rungs (Name.parted_ofText text)), ← rungs]

theorem ladder_sublist (member : name ∈ ladder text) : (ladder name).Sublist (ladder text) := by
  rw [ladder_eq] at member
  obtain ⟨lower, falls, rfl⟩ := Name.falls_of_mem_rungs (List.mem_filter.1 member).1
  rw [ladder_eq, ladder_eq, Name.ofText_text ((Name.parted_ofText text).of_falls falls)]
  exact (Name.rungs_sublist falls).filter _

/-- A ladder has no duplicates and no empty name. -/
theorem distinctNames_ladder (text : List Char) : distinctNames (ladder text) = ladder text := by
  have distinct : (ladder text).Nodup := nodup_distinctNames _
  rw [distinctNames_of_nodup distinct]
  refine List.filter_eq_self.2 fun name member => ?_
  simpa using (mem_distinctNames.1 member).2

/-- A name without hyphen heads its own ladder. -/
theorem steps_of_plain (plain : '-' ∉ text) : steps text = ladder text := by
  rw [steps, withUnderscores_eq_self plain, distinctNames, distinctNames_ladder]
  split
  · rfl
  · next full => rw [ladder, distinctNames, if_neg full]; simp

/-- A name with a hyphen precedes the ladder of the name with underscores. -/
theorem steps_of_hyphen (hyphen : '-' ∈ text) :
    steps text = text :: ladder (withUnderscores text) := by
  have full : ¬text.isEmpty := by
    rintro empty
    rw [List.isEmpty_iff.1 empty] at hyphen
    cases hyphen
  rw [steps, distinctNames, if_neg full, distinctNames_ladder]
  refine congrArg (text :: ·) (List.filter_eq_self.2 fun name member => ?_)
  have other : name ≠ text := by
    rintro rfl
    exact hyphen_notMem_of_mem_ladder member hyphen
  simpa using other

theorem steps_sublist (member : name ∈ steps text) : (steps name).Sublist (steps text) := by
  by_cases hyphen : '-' ∈ text
  · rw [steps_of_hyphen hyphen, List.mem_cons] at member
    rcases member with rfl | below
    · exact List.Sublist.refl _
    · rw [steps_of_plain (hyphen_notMem_of_mem_ladder below), steps_of_hyphen hyphen]
      exact (ladder_sublist below).cons text
  · have ladder : steps text = ladder (withUnderscores text) := by
      rw [withUnderscores_eq_self hyphen, steps_of_plain hyphen]
    rw [ladder] at member ⊢
    rw [steps_of_plain (hyphen_notMem_of_mem_ladder member)]
    exact ladder_sublist member

/-- The candidates of a locale are distinct and nonempty and start with the locale; those of a
candidate are a sublist. -/
theorem candidates_descend (locale : String) :
    (candidates locale).Nodup ∧ "" ∉ candidates locale ∧
      (locale ≠ "" → (candidates locale).head? = some locale) ∧
      ∀ name ∈ candidates locale, (candidates name).Sublist (candidates locale) := by
  refine ⟨?_, ?_, fun full => ?_, fun name member => ?_⟩
  · exact List.Nodup.map (fun _ _ => String.ofList_injective) (nodup_distinctNames _)
  · rw [candidates, mem_map_ofList]
    exact fun member => (mem_distinctNames.1 member).2 rfl
  · have full : ¬locale.toList.isEmpty := by simpa using full
    rw [candidates, steps, distinctNames, if_neg full]
    simp
  · exact (steps_sublist (mem_map_ofList.1 member)).map String.ofList

theorem candidates_descend_valencian :
    candidates "es_ES.UTF-8@valencia" = ["es_ES.UTF-8@valencia", "es_ES.UTF_8@valencia",
        "es_ES@valencia", "es_ES.UTF_8", "es_ES", "es@valencia", "es"] ∧
      candidates "es_ES@valencia" = ["es_ES@valencia", "es_ES", "es@valencia", "es"] ∧
      (candidates "es_ES.UTF-8@valencia").head? = some "es_ES.UTF-8@valencia" ∧
      (candidates "es_ES@valencia").Sublist (candidates "es_ES.UTF-8@valencia") := by
  obtain ⟨-, -, first, descend⟩ := candidates_descend "es_ES.UTF-8@valencia"
  exact ⟨by decide +kernel, by decide +kernel, first (by decide),
    descend "es_ES@valencia" (by decide +kernel)⟩

end Ladders
end MessageCatalog.Locale
