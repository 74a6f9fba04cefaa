/-! Parts of a split text hold no separator, and texts that end in separators are split one by
one. -/
namespace MessageCatalog.Text

theorem mem_and_not_of_mem_splitOnP {α : Type} {p : α → Bool} {text part : List α}
    (member : part ∈ text.splitOnP p) : ∀ c ∈ part, c ∈ text ∧ p c = false := by
  induction text generalizing part with
  | nil => simp_all
  | cons x text ih =>
    have further {part : List α} (h : ∀ c ∈ part, c ∈ text ∧ p c = false) :
        ∀ c ∈ part, c ∈ x :: text ∧ p c = false := fun c inside =>
      ⟨List.mem_cons_of_mem x (h c inside).1, (h c inside).2⟩
    rw [List.splitOnP_cons_eq_if_modifyHead] at member
    split at member
    · rcases List.mem_cons.1 member with rfl | later
      · simp
      · exact further (ih later)
    · next other =>
      -- The first part takes up one more character, the others stand as they were.
      obtain ⟨first, parts, split⟩ := List.exists_cons_of_ne_nil (List.splitOnP_ne_nil p text)
      simp only [split, List.modifyHead_cons, List.mem_cons] at member ih
      rcases member with rfl | later
      · intro c inside
        rcases List.mem_cons.1 inside with rfl | inside
        · exact ⟨List.mem_cons_self, by simpa using other⟩
        · exact further (ih (.inl rfl)) c inside
      · exact further (ih (.inr later))

theorem not_of_mem_splitOnP {α : Type} {p : α → Bool} {text part : List α}
    (member : part ∈ text.splitOnP p) : ∀ c ∈ part, p c = false := fun c inside =>
  (mem_and_not_of_mem_splitOnP member c inside).2

theorem notMem_of_mem_splitOn {α : Type} [BEq α] [LawfulBEq α] {c : α} {text part : List α}
    (member : part ∈ text.splitOn c) : c ∉ part := by
  intro inside
  simpa using not_of_mem_splitOnP member c inside

theorem subset_of_mem_splitOn {α : Type} [BEq α] {c : α} {text part : List α}
    (member : part ∈ text.splitOn c) : part ⊆ text := fun x inside =>
  (mem_and_not_of_mem_splitOnP member x inside).1

section Separators

variable {α : Type} [BEq α] [LawfulBEq α] {mark : α}

/-- Texts each ended by a separator are split into their own parts. -/
theorem splitOn_flatMap_ended (texts : List (List α)) :
    (texts.flatMap (· ++ [mark])).splitOn mark = texts.flatMap (·.splitOn mark) ++ [[]] := by
  induction texts with
  | nil => exact List.splitOn_nil mark
  | cons text texts ih =>
    rw [List.flatMap_cons, List.append_assoc, List.singleton_append,
      List.splitOn_append_cons_self, ih, List.flatMap_cons, List.append_assoc]

theorem flatMap_splitOn {texts : List (List α)} (whole : ∀ text ∈ texts, mark ∉ text) :
    texts.flatMap (·.splitOn mark) = texts := by
  induction texts with
  | nil => rfl
  | cons text texts ih =>
    obtain ⟨first, others⟩ := List.forall_mem_cons.1 whole
    rw [List.flatMap_cons, List.splitOn_eq_singleton first, ih others, List.singleton_append]

theorem splitOn_ended {texts : List (List α)} (whole : ∀ text ∈ texts, mark ∉ text) :
    (texts.flatMap (· ++ [mark])).splitOn mark = texts ++ [[]] := by
  rw [splitOn_flatMap_ended, flatMap_splitOn whole]

theorem splitOn_map {f : α → α} (kept : ∀ c, f c = mark ↔ c = mark) (text : List α) :
    (text.map f).splitOn mark = (text.splitOn mark).map (·.map f) := by
  induction text with
  | nil => simp
  | cons c text ih =>
    obtain ⟨first, parts, split⟩ := List.exists_cons_of_ne_nil (List.splitOn_ne_nil mark text)
    rw [split, List.splitOn_eq_splitOnP] at ih
    rw [List.splitOn_eq_splitOnP] at split
    rw [List.map_cons, List.splitOn_eq_splitOnP, List.splitOn_eq_splitOnP,
      List.splitOnP_cons_eq_if_modifyHead, List.splitOnP_cons_eq_if_modifyHead, ih, split]
    by_cases same : c = mark <;> simp [same, kept]

theorem splitOn_cons {c : α} (other : c ≠ mark) (text : List α) :
    ∃ first parts, (c :: text).splitOn mark = (c :: first) :: parts := by
  obtain ⟨first, parts, split⟩ := List.exists_cons_of_ne_nil (List.splitOn_ne_nil mark text)
  refine ⟨first, parts, ?_⟩
  rw [List.splitOn_eq_splitOnP] at split
  rw [List.splitOn_eq_splitOnP, List.splitOnP_cons_eq_if_modifyHead, split]
  simp [other]

omit [BEq α] [LawfulBEq α] in
theorem intercalate_concat_append (init : List (List α)) (last more : List α) :
    [mark].intercalate (init ++ [last ++ more]) = [mark].intercalate (init ++ [last]) ++ more := by
  induction init with
  | nil => simp
  | cons part init ih => simp [List.intercalate_cons_of_ne_nil, ih]

/-- An appended text extends the last part. -/
theorem splitOn_append {text more last : List α} {init : List (List α)}
    (split : text.splitOn mark = init ++ [last]) (whole : mark ∉ more) :
    (text ++ more).splitOn mark = init ++ [last ++ more] := by
  have parts : ∀ part ∈ init ++ [last], mark ∉ part := fun part member =>
    notMem_of_mem_splitOn (split ▸ member)
  have longer : ∀ part ∈ init ++ [last ++ more], mark ∉ part := by
    intro part member
    rcases List.mem_append.1 member with earlier | final
    · exact parts part (List.mem_append_left _ earlier)
    · rw [List.mem_singleton.1 final, List.mem_append, not_or]
      exact ⟨parts last (by simp), whole⟩
  have joined : [mark].intercalate (init ++ [last]) = text := split ▸ List.intercalate_splitOn mark
  rw [← joined, ← intercalate_concat_append, List.splitOn_intercalate mark longer (by simp)]

/-- The last part of one text and the first of the next are joined. -/
theorem splitOn_append_cons {text more last first : List α} {init parts : List (List α)}
    (front : text.splitOn mark = init ++ [last]) (back : more.splitOn mark = first :: parts) :
    (text ++ more).splitOn mark = init ++ (last ++ first) :: parts := by
  have whole : ∀ part ∈ first :: parts, mark ∉ part := fun part member =>
    notMem_of_mem_splitOn (back ▸ member)
  have joined : [mark].intercalate (first :: parts) = more := back ▸ List.intercalate_splitOn mark
  have glued := splitOn_append front (whole first List.mem_cons_self)
  cases parts with
  | nil =>
    rw [← joined, List.intercalate_singleton]
    exact glued
  | cons second parts =>
    have others : ([mark].intercalate (second :: parts)).splitOn mark = second :: parts :=
      List.splitOn_intercalate mark (fun part member => whole part (List.mem_cons_of_mem _ member))
        (List.cons_ne_nil _ _)
    rw [List.intercalate_cons_of_ne_nil (List.cons_ne_nil _ _), List.append_assoc,
      List.singleton_append] at joined
    rw [← joined, ← List.append_assoc, List.splitOn_append_cons_self, glued, others,
      List.append_assoc, List.singleton_append]

end Separators

end MessageCatalog.Text
