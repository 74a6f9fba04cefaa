/-! Texts between double quotes. Backslash, quote, line feed, tab and carriage return are escaped;
decoding accepts escapes only and inverts encoding. -/
namespace MessageCatalog.Text.Quoted

def encodeChar : Char → List Char
  | '\\' => ['\\', '\\']
  | '"' => ['\\', '"']
  | '\n' => ['\\', 'n']
  | '\t' => ['\\', 't']
  | '\r' => ['\\', 'r']
  | c => [c]

def encode (text : List Char) : List Char := text.flatMap encodeChar

def decodeChar? : Char → Option Char
  | '\\' => some '\\'
  | '"' => some '"'
  | 'n' => some '\n'
  | 't' => some '\t'
  | 'r' => some '\r'
  | _ => none

/-- Rejects unknown escapes, a trailing backslash and a bare quote. -/
def decode : List Char → Option (List Char)
  | [] => some []
  | '\\' :: [] => none
  | '\\' :: c :: rest =>
    match decodeChar? c with
    | some c => (decode rest).map (c :: ·)
    | none => none
  | c :: rest => if c = '"' then none else (decode rest).map (c :: ·)

/-- Every character but the five stands for itself. -/
theorem encodeChar_eq_self {c : Char} (h : c ∉ ['\\', '"', '\n', '\t', '\r']) :
    encodeChar c = [c] := by
  simp only [List.mem_cons, List.not_mem_nil, or_false, not_or] at h
  unfold encodeChar
  split <;> simp_all

theorem encode_append (a b : List Char) : encode (a ++ b) = encode a ++ encode b :=
  List.flatMap_append

theorem encode_singleton (c : Char) : encode [c] = encodeChar c := List.flatMap_singleton _ _

theorem encode_flatten (texts : List (List Char)) :
    encode texts.flatten = (texts.map encode).flatten := by
  induction texts with
  | nil => rfl
  | cons text texts ih => rw [List.flatten_cons, encode_append, ih, List.map_cons, List.flatten_cons]

theorem encode_eq_nil_iff {text : List Char} : encode text = [] ↔ text = [] := by
  cases text with
  | nil => exact ⟨fun _ => rfl, fun _ => rfl⟩
  | cons c rest =>
    have filled : encodeChar c ≠ [] := by
      unfold encodeChar
      split <;> exact List.cons_ne_nil _ _
    simp [encode, filled]

/-- An encoded text is on one line. -/
theorem feed_notMem_encode (text : List Char) : '\n' ∉ encode text := by
  intro member
  obtain ⟨c, -, inside⟩ := List.mem_flatMap.1 member
  by_cases special : c ∈ ['\\', '"', '\n', '\t', '\r']
  · simp only [List.mem_cons, List.not_mem_nil, or_false] at special
    rcases special with rfl | rfl | rfl | rfl | rfl <;> simp [encodeChar] at inside
  · rw [encodeChar_eq_self special, List.mem_singleton] at inside
    exact special (by simp [← inside])

theorem decode_cons {c : Char} (h : c ≠ '\\') (g : c ≠ '"') (rest : List Char) :
    decode (c :: rest) = (decode rest).map (c :: ·) := by
  rw [decode.eq_def]
  split
  · simp_all
  · simp_all
  · simp_all
  · next same => cases same; rw [if_neg g]

theorem decode_encodeChar_append (c : Char) (rest : List Char) :
    decode (encodeChar c ++ rest) = (decode rest).map (c :: ·) := by
  by_cases h : c ∈ ['\\', '"', '\n', '\t', '\r']
  · simp only [List.mem_cons, List.not_mem_nil, or_false] at h
    rcases h with rfl | rfl | rfl | rfl | rfl <;> rfl
  · rw [encodeChar_eq_self h, List.singleton_append]
    simp only [List.mem_cons, List.not_mem_nil, or_false, not_or] at h
    exact decode_cons h.1 h.2.1 rest

theorem decode_encode (text : List Char) : decode (encode text) = some text := by
  induction text with
  | nil => rfl
  | cons c rest ih =>
    rw [encode, List.flatMap_cons, decode_encodeChar_append]
    exact congrArg (Option.map (c :: ·)) ih

def between (text : List Char) : List Char := '"' :: (text ++ ['"'])

def encoded (text : String) : String := String.ofList (encode text.toList)

end MessageCatalog.Text.Quoted
