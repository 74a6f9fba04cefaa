import MessageCatalog.Proofs.Catalog.Sources

/-! Look-ups in every state that a catalog can reach: a stored nonempty form, or the text of the
caller, for whatever reason a form is missing. -/
namespace MessageCatalog.Catalog

open Charset

variable {E : Type} [Encodings E]

namespace State

/-- A nonempty form stored under the key. -/
def Stores (s : State) (context : Option String) (id : String) (index : Nat) (form : String) :
    Prop :=
  ∃ forms, s.messages.find? (messageKey context id) = some forms ∧ forms[index]? = some form ∧
    form ≠ ""

/-- The selected index is counted and its form is stored. -/
def Tells (s : State) (context : Option String) (id : String) (n : Int64) (form : String) : Prop :=
  ∃ index : Int32, s.rule.index n = .ok index ∧ 0 ≤ index.toInt ∧
    index.toInt < s.rule.forms.toNat ∧ s.Stores context id index.toInt.toNat form

/-- Why no form is selected. -/
inductive Lacks (s : State) (context : Option String) (id : String) (n : Int64) : Prop
  | unknown (absent : s.messages.find? (messageKey context id) = none)
  | faulty (fails : s.rule.index n = .error .divisionByZero)
  | negative {index : Int32} (yields : s.rule.index n = .ok index) (below : index.toInt < 0)
  | uncounted {index : Int32} (yields : s.rule.index n = .ok index)
      (beyond : s.rule.forms.toNat ≤ index.toInt)
  | unstored {index : Int32} {forms : List String} (yields : s.rule.index n = .ok index)
      (found : s.messages.find? (messageKey context id) = some forms)
      (beyond : forms.length ≤ index.toInt)
  | blank {index : Int32} {forms : List String} (yields : s.rule.index n = .ok index)
      (found : s.messages.find? (messageKey context id) = some forms)
      (empty : forms[index.toInt.toNat]? = some "")

variable {s : State} {context : Option String} {id pluralId form : String} {index : Nat}
  {n : Int64}

theorem form?_eq_some_iff {forms : List String} :
    form? forms index = some form ↔ forms[index]? = some form ∧ form ≠ "" := by
  simp [form?, Option.filter_eq_some_iff]

theorem Lacks.not_tells (lacks : s.Lacks context id n) : ¬s.Tells context id n form := by
  rintro ⟨index, yields, nonneg, counted, forms, found, stored, filled⟩
  cases lacks with
  | unknown absent => exact nomatch absent.symm.trans found
  | faulty fails => exact nomatch fails.symm.trans yields
  | negative yields' below =>
    cases yields'.symm.trans yields
    omega
  | uncounted yields' beyond =>
    cases yields'.symm.trans yields
    omega
  | unstored yields' found' beyond =>
    cases yields'.symm.trans yields
    cases found'.symm.trans found
    have inside := (List.getElem?_eq_some_iff.1 stored).1
    omega
  | blank yields' found' empty =>
    cases yields'.symm.trans yields
    cases found'.symm.trans found
    exact filled (Option.some.inj (stored.symm.trans empty))

theorem tells_or_lacks (s : State) (context : Option String) (id : String) (n : Int64) :
    (∃ form, s.Tells context id n form) ∨ s.Lacks context id n := by
  cases found : s.messages.find? (messageKey context id) with
  | none => exact .inr (.unknown found)
  | some forms =>
    cases yields : s.rule.index n with
    | error fault =>
      cases fault
      exact .inr (.faulty yields)
    | ok index =>
      rcases Int.lt_or_le index.toInt 0 with below | nonneg
      · exact .inr (.negative yields below)
      rcases Int.lt_or_le index.toInt s.rule.forms.toNat with counted | beyond
      · cases stored : forms[index.toInt.toNat]? with
        | none =>
          have past := List.getElem?_eq_none_iff.1 stored
          exact .inr (.unstored yields found (by omega))
        | some form =>
          by_cases filled : form = ""
          · exact .inr (.blank yields found (filled ▸ stored))
          · exact .inl ⟨form, index, yields, nonneg, counted, forms, found, stored, filled⟩
      · exact .inr (.uncounted yields beyond)

theorem singular_of_stores (stores : s.Stores context id 0 form) :
    s.singular context id = form := by
  obtain ⟨forms, found, stored, filled⟩ := stores
  rw [singular, found]
  exact congrArg (·.getD id) (form?_eq_some_iff.2 ⟨stored, filled⟩)

theorem singular_of_not_stores (silent : ∀ form, ¬s.Stores context id 0 form) :
    s.singular context id = id := by
  rw [singular]
  cases found : s.messages.find? (messageKey context id) with
  | none => rfl
  | some forms =>
    have none : form? forms 0 = none := by
      refine Option.eq_none_iff_forall_ne_some.2 fun form told => silent form ?_
      obtain ⟨stored, filled⟩ := form?_eq_some_iff.1 told
      exact ⟨forms, found, stored, filled⟩
    exact congrArg (·.getD id) none

theorem chosen?_eq_some_iff {forms : List String} : s.chosen? forms n = some form ↔
    ∃ index : Int32, s.rule.index n = .ok index ∧ 0 ≤ index.toInt ∧
      index.toInt < s.rule.forms.toNat ∧ forms[index.toInt.toNat]? = some form ∧ form ≠ "" := by
  rw [chosen?]
  cases s.rule.index n with
  | error fault => simp
  | ok index =>
    constructor
    · intro told
      dsimp only at told
      split at told
      · next bounds =>
        obtain ⟨stored, filled⟩ := form?_eq_some_iff.1 told
        exact ⟨index, rfl, bounds.1, by omega, stored, filled⟩
      · cases told
    · rintro ⟨_, yields, nonneg, counted, stored, filled⟩
      cases yields
      exact (if_pos ⟨nonneg, by omega⟩).trans (form?_eq_some_iff.2 ⟨stored, filled⟩)

theorem plural_of_tells (tells : s.Tells context id n form) :
    s.plural context id pluralId n = form := by
  obtain ⟨index, yields, nonneg, counted, forms, found, stored, filled⟩ := tells
  have chosen := chosen?_eq_some_iff.2 ⟨index, yields, nonneg, counted, stored, filled⟩
  simp only [plural, found, chosen, Option.getD_some]

theorem plural_of_lacks (lacks : s.Lacks context id n) :
    s.plural context id pluralId n = if n = 1 then id else pluralId := by
  rw [plural]
  cases found : s.messages.find? (messageKey context id) with
  | none => rfl
  | some forms =>
    have none : s.chosen? forms n = none := by
      refine Option.eq_none_iff_forall_ne_some.2 fun form told => ?_
      obtain ⟨index, yields, nonneg, counted, stored, filled⟩ := chosen?_eq_some_iff.1 told
      exact lacks.not_tells ⟨index, yields, nonneg, counted, forms, found, stored, filled⟩
    simp only [none, Option.getD_none]

/-- Look-ups never blank a text. -/
theorem singular_ne_empty (named : id ≠ "") : s.singular context id ≠ "" := by
  by_cases silent : ∀ form, ¬s.Stores context id 0 form
  · rwa [singular_of_not_stores silent]
  · obtain ⟨form, forms, found, stored, filled⟩ := not_forall_not.1 silent
    rwa [singular_of_stores ⟨forms, found, stored, filled⟩]

theorem plural_ne_empty (named : id ≠ "") (pluralNamed : pluralId ≠ "") :
    s.plural context id pluralId n ≠ "" := by
  rcases s.tells_or_lacks context id n with ⟨form, tells⟩ | lacks
  · rw [plural_of_tells tells]
    obtain ⟨index, -, -, -, forms, -, -, filled⟩ := tells
    exact filled
  · rw [plural_of_lacks lacks]
    split
    · exact named
    · exact pluralNamed

end State

def doubtfulSource : Source Cyrillic :=
  .image .standard "de" ((Image.Draft.empty.add "" "Plural-Forms: nplurals=2; plural=6/n-1;").add "a"
    ("x" ++ formMark.toString)).bytes

def doubtful : State where
  messages := Table.empty.insert "a" ["x", ""]
  fields := Table.empty.insert "Plural-Forms" "nplurals=2; plural=6/n-1;"
  rule := ⟨2, .binary .sub (.binary .div (.number 6) .count) (.number 1), .compiled⟩
  locale := "de"
  warnings := []

end MessageCatalog.Catalog
