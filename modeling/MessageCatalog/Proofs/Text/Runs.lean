/-! Maximal runs of characters of one kind at the start of a text. -/
namespace MessageCatalog.Text

variable {α : Type} {p : α → Bool} {run rest : List α}

theorem takeWhile_append_of_stops (all : ∀ c ∈ run, p c = true)
    (stops : ∀ c ∈ rest.head?, p c = false) : (run ++ rest).takeWhile p = run := by
  rw [List.takeWhile_append_of_pos all]
  cases rest with
  | nil => exact List.append_nil run
  | cons c rest => rw [List.takeWhile_cons_of_neg (by simp [stops c rfl]), List.append_nil]

theorem dropWhile_append_of_stops (all : ∀ c ∈ run, p c = true)
    (stops : ∀ c ∈ rest.head?, p c = false) : (run ++ rest).dropWhile p = rest := by
  rw [List.dropWhile_append_of_pos all]
  cases rest with
  | nil => rfl
  | cons c rest => exact List.dropWhile_cons_of_neg (by simp [stops c rfl])

theorem eq_false_of_mem_head?_dropWhile {text : List α} :
    ∀ c ∈ (text.dropWhile p).head?, p c = false := by
  intro c head
  have stops := List.head?_dropWhile_not p text
  rw [Option.mem_def.1 head] at stops
  exact stops

end MessageCatalog.Text
