/-! Cutting a text in two at the first occurrence of a character. -/
namespace MessageCatalog.Text

/-- Splits at the first `c`. -/
def cut (c : Char) : List Char → Option (List Char × List Char)
  | [] => none
  | x :: rest => if x = c then some ([], rest) else (cut c rest).map fun (a, b) => (x :: a, b)

theorem cut_eq_none_iff {c : Char} {text : List Char} : cut c text = none ↔ c ∉ text := by
  induction text with
  | nil => simp [cut]
  | cons x rest ih =>
    by_cases h : x = c
    · simp [cut, h]
    · simp [cut, h, ih, Ne.symm h]

theorem cut_eq_some_iff {c : Char} {text before after : List Char} :
    cut c text = some (before, after) ↔ text = before ++ c :: after ∧ c ∉ before := by
  induction text generalizing before with
  | nil => simp [cut]
  | cons x rest ih =>
    by_cases h : x = c
    · subst h
      cases before <;> simp [cut]
      rintro rfl
      simp
    · cases before with
      | nil => simp [cut, h]
      | cons y tail =>
        simp only [cut, h, ↓reduceIte, Option.map_eq_some_iff, Prod.exists, Prod.mk.injEq,
          List.cons.injEq, List.cons_append, List.mem_cons, not_or]
        constructor
        · rintro ⟨a, b, hab, ⟨rfl, rfl⟩, rfl⟩
          exact ⟨⟨rfl, (ih.1 hab).1⟩, Ne.symm h, (ih.1 hab).2⟩
        · rintro ⟨⟨rfl, hr⟩, _, hn⟩
          exact ⟨tail, after, ih.2 ⟨hr, hn⟩, ⟨rfl, rfl⟩, rfl⟩

end MessageCatalog.Text
