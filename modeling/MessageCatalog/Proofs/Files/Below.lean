import MessageCatalog.Proofs.Files.Places

/-! Paths below a directory, judged by their texts. A joined text leads on unless it starts at the
root, and stays below unless it goes up. -/
namespace MessageCatalog.Files.Path

def IsAbsolute (p : Path) : Prop := p.text.toList.head? = some '/'

instance (p : Path) : Decidable p.IsAbsolute := inferInstanceAs (Decidable (_ = _))

def Relative (text : String) : Prop := ¬(mk text).IsAbsolute

instance (text : String) : Decidable (Relative text) := inferInstanceAs (Decidable ¬_)

def names (p : Path) : List String := p.steps.filter (!staysHere ·)

/-- Below a directory by steps that do not go up. -/
def Below (p dir : Path) : Prop :=
  (p.IsAbsolute ↔ dir.IsAbsolute) ∧
    ∃ rest, rest ≠ [] ∧ ".." ∉ rest ∧ p.names = dir.names ++ rest

theorem below_iff {p dir : Path} : p.Below dir ↔
    (p.IsAbsolute ↔ dir.IsAbsolute) ∧ dir.names <+: p.names ∧
      p.names.drop dir.names.length ≠ [] ∧ ".." ∉ p.names.drop dir.names.length := by
  refine and_congr_right fun _ => ⟨?_, ?_⟩
  · rintro ⟨rest, some, level, names⟩
    rw [names, List.drop_left]
    exact ⟨List.prefix_append _ _, some, level⟩
  · rintro ⟨⟨rest, names⟩, some, level⟩
    rw [← names, List.drop_left] at some level
    exact ⟨rest, some, level, names.symm⟩

instance (p dir : Path) : Decidable (p.Below dir) := decidable_of_iff _ below_iff.symm

structure Onward (text : String) : Prop where
  relative : Relative text
  forward : ".." ∉ (mk text).steps

instance (text : String) : Decidable (Onward text) :=
  decidable_of_iff (Relative text ∧ ".." ∉ (mk text).steps)
    ⟨fun ⟨relative, forward⟩ => ⟨relative, forward⟩, fun ⟨relative, forward⟩ => ⟨relative, forward⟩⟩

section Joining

variable {p : Path} {name : String}

theorem up_mem_names : ".." ∈ p.names ↔ ".." ∈ p.steps := by
  rw [names, List.mem_filter]
  exact and_iff_left (by decide)

theorem names_of_slash (p : Path) (front back : List Char)
    (text : p.text.toList = front ++ '/' :: back) :
    p.names = (mk (String.ofList front)).names ++ (mk (String.ofList back)).names := by
  simp only [names, steps, text, String.toList_ofList, List.splitOn_append_cons_self, List.map_append,
    List.filter_append]

theorem names_empty : (mk "").names = [] := by decide

theorem join_absolute (absolute : (mk name).IsAbsolute) : p.join name = ⟨name⟩ := if_pos absolute

theorem join_relative (relative : Relative name) :
    p.join name = if p.text.isEmpty || p.text.toList.getLast? == some '/' then ⟨p.text ++ name⟩
      else ⟨p.text ++ "/" ++ name⟩ := if_neg relative

/-- Joined names follow those of the path, with or without a slash between. -/
theorem names_join (relative : Relative name) :
    (p.join name).names = p.names ++ (mk name).names := by
  rw [join_relative relative]
  split
  · next closed =>
    rcases Bool.or_eq_true_iff.1 closed with empty | slash
    · obtain ⟨text⟩ := p
      obtain rfl : text = "" := by simpa using empty
      rw [names_empty, String.empty_append, List.nil_append]
    · obtain ⟨front, text⟩ := List.getLast?_eq_some_iff.1 (eq_of_beq slash)
      have own := names_of_slash p front [] text
      have joined := names_of_slash ⟨p.text ++ name⟩ front name.toList (by simp [text])
      rw [String.ofList_toList] at joined
      rw [joined, own, show String.ofList [] = "" from rfl, names_empty, List.append_nil]
  · have joined := names_of_slash ⟨p.text ++ "/" ++ name⟩ p.text.toList name.toList (by simp)
    rwa [String.ofList_toList, String.ofList_toList] at joined

theorem isAbsolute_join (relative : Relative name) :
    (p.join name).IsAbsolute ↔ p.IsAbsolute := by
  obtain ⟨text⟩ := p
  by_cases empty : text = ""
  · subst empty
    simpa [join_relative relative, Relative, IsAbsolute] using relative
  · obtain ⟨first, others, chars⟩ : ∃ first others, text.toList = first :: others :=
      List.exists_cons_of_ne_nil (by simpa using empty)
    rw [join_relative relative]
    split <;> simp [IsAbsolute, chars]

end Joining

end MessageCatalog.Files.Path
