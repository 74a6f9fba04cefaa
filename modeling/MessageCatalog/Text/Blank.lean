/-! White space characters, and trimming them off both ends of a text. -/
namespace MessageCatalog.Text

def blankRanges : List (Nat × Nat) :=
  [(0x09, 0x0D), (0x20, 0x20), (0x85, 0x85), (0xA0, 0xA0), (0x1680, 0x1680), (0x2000, 0x200A),
    (0x2028, 0x2029), (0x202F, 0x202F), (0x205F, 0x205F), (0x3000, 0x3000)]

def isBlank (c : Char) : Bool := blankRanges.any fun r => r.1 ≤ c.toNat && c.toNat ≤ r.2

theorem isBlank_of_visible {c : Char} (above : 0x20 < c.toNat) (below : c.toNat < 0x7F) :
    isBlank c = false := by
  have clear : ∀ r ∈ blankRanges, c.toNat < r.1 ∨ r.2 < c.toNat := by
    simp only [blankRanges, List.forall_mem_cons, List.not_mem_nil, false_imp_iff, implies_true,
      and_true]
    omega
  refine Bool.eq_false_iff.2 fun blank => ?_
  obtain ⟨r, member, inside⟩ := List.any_eq_true.1 blank
  have := clear r member
  simp only [Bool.and_eq_true, decide_eq_true_eq] at inside
  omega

def stripBoth (p : Char → Bool) (text : List Char) : List Char :=
  ((text.dropWhile p).reverse.dropWhile p).reverse

def trim (text : List Char) : List Char := stripBoth isBlank text

def trimmed (text : String) : String := String.ofList (trim text.toList)

end MessageCatalog.Text
