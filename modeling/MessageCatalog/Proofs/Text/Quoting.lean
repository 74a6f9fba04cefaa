import Mathlib.Data.List.Induction
import MessageCatalog.Text.Quoted

/-! Quoted texts on one line. Whether a quote is escaped is decided by the parity of the backslashes
before it. -/
namespace MessageCatalog.Text.Quoted

def endingBackslashes (text : List Char) : Nat := (text.reverse.takeWhile (· == '\\')).length

/-- No line feed, unescaped quote or open backslash at the end. -/
structure Intact (piece : List Char) : Prop where
  unbroken : '\n' ∉ piece
  quotes : ∀ before after, piece = before ++ '"' :: after → endingBackslashes before % 2 = 1
  ending : endingBackslashes piece % 2 = 0

theorem endingBackslashes_concat (text : List Char) (c : Char) :
    endingBackslashes (text ++ [c]) = if c = '\\' then endingBackslashes text + 1 else 0 := by
  by_cases backslash : c = '\\' <;> simp [endingBackslashes, backslash]

theorem endingBackslashes_pair (text : List Char) (sign : Char) :
    endingBackslashes (text ++ ['\\', sign]) =
      if sign = '\\' then endingBackslashes text + 2 else 0 := by
  rw [List.append_cons, endingBackslashes_concat, endingBackslashes_concat, if_pos rfl]

/-- A character is encoded as itself or as a backslash pair. -/
theorem encodeChar_cases (c : Char) :
    (encodeChar c = [c] ∧ c ≠ '\\' ∧ c ≠ '"') ∨ ∃ sign, encodeChar c = ['\\', sign] := by
  by_cases special : c ∈ ['\\', '"', '\n', '\t', '\r']
  · simp only [List.mem_cons, List.not_mem_nil, or_false] at special
    rcases special with rfl | rfl | rfl | rfl | rfl <;> exact .inr ⟨_, rfl⟩
  · have plain := encodeChar_eq_self special
    simp only [List.mem_cons, List.not_mem_nil, or_false, not_or] at special
    exact .inl ⟨plain, special.1, special.2.1⟩

theorem encode_concat (text : List Char) (c : Char) :
    encode (text ++ [c]) = encode text ++ encodeChar c := by
  rw [encode_append, encode_singleton]

theorem even_endingBackslashes_encode (text : List Char) :
    endingBackslashes (encode text) % 2 = 0 := by
  induction text using List.reverseRecOn with
  | nil => rfl
  | append_singleton text c ih =>
    rw [encode_concat]
    rcases encodeChar_cases c with ⟨plain, other, -⟩ | ⟨sign, pair⟩
    · rw [plain, endingBackslashes_concat, if_neg other]
    · rw [pair, endingBackslashes_pair]
      split <;> omega

/-- A quote in an encoded text is the second of a pair. -/
theorem exists_encode_of_quote {text before after : List Char}
    (split : encode text = before ++ '"' :: after) : ∃ taken, before = encode taken ++ ['\\'] := by
  induction text generalizing before with
  | nil => simp [encode] at split
  | cons c rest ih =>
    rw [encode, List.flatMap_cons] at split
    have further {between : List Char} (later : encode rest = between ++ '"' :: after) :
        ∃ taken, encodeChar c ++ between = encode taken ++ ['\\'] := by
      obtain ⟨taken, rfl⟩ := ih later
      exact ⟨c :: taken, by simp [encode]⟩
    rcases encodeChar_cases c with ⟨plain, -, other⟩ | ⟨sign, pair⟩
    · rw [plain] at split further
      cases before with
      | nil => exact absurd (List.cons.inj split).1 other
      | cons d between =>
        obtain ⟨rfl, later⟩ := List.cons.inj split
        exact further later
    · rw [pair] at split further
      -- the quote cannot be the backslash of the pair, but it can be its sign
      cases before with
      | nil => exact absurd (List.cons.inj split).1 (by decide)
      | cons d between =>
        obtain ⟨rfl, signed⟩ := List.cons.inj split
        cases between with
        | nil => exact ⟨[], rfl⟩
        | cons e between =>
          obtain ⟨rfl, later⟩ := List.cons.inj signed
          exact further later

theorem odd_endingBackslashes_of_quote {text before after : List Char}
    (split : encode text = before ++ '"' :: after) : endingBackslashes before % 2 = 1 := by
  obtain ⟨taken, rfl⟩ := exists_encode_of_quote split
  have even := even_endingBackslashes_encode taken
  rw [endingBackslashes_concat, if_pos rfl]
  omega

theorem intact_encode (text : List Char) : Intact (encode text) where
  unbroken := feed_notMem_encode text
  quotes := fun _ _ => odd_endingBackslashes_of_quote
  ending := even_endingBackslashes_encode text

end MessageCatalog.Text.Quoted
