/-! Positional placeholders such as `{0}`. Doubled braces stand for themselves, and unresolved
placeholders are copied. -/
namespace MessageCatalog.Text

/-- Digits followed by a closing brace. -/
def indexAt (text : List Char) : Option (List Char × List Char) :=
  match text.dropWhile Char.isDigit with
  | '\x7d' :: rest =>
    let digits := text.takeWhile Char.isDigit
    if digits.isEmpty then none else some (digits, rest)
  | _ => none

def argumentAt (arguments : List (List Char)) (text : List Char) :
    Option (List Char × List Char) :=
  match indexAt text with
  | some (digits, rest) => (arguments[Nat.ofDigitChars 10 digits 0]?).map (·, rest)
  | none => none

theorem indexAt_eq_some {text digits rest : List Char} (h : indexAt text = some (digits, rest)) :
    text = digits ++ '\x7d' :: rest := by
  unfold indexAt at h
  split at h
  · next eq =>
    by_cases empty : (text.takeWhile Char.isDigit).isEmpty = true
    · simp [empty] at h
    · simp only [empty, Bool.false_eq_true, ↓reduceIte, Option.some.injEq, Prod.mk.injEq] at h
      rw [← h.1, ← h.2, ← eq, List.takeWhile_append_dropWhile]
  · simp at h

theorem length_argumentAt {arguments : List (List Char)} {text argument rest : List Char}
    (h : argumentAt arguments text = some (argument, rest)) : rest.length < text.length := by
  unfold argumentAt at h
  split at h
  · next digits after eq =>
    obtain ⟨_, _, same⟩ := Option.map_eq_some_iff.1 h
    cases same
    simp [indexAt_eq_some eq]
    omega
  · simp at h

/-- Inserted arguments are not rescanned. -/
def fill (arguments : List (List Char)) : List Char → List Char
  | [] => []
  | '\x7b' :: '\x7b' :: rest => '\x7b' :: fill arguments rest
  | '\x7d' :: '\x7d' :: rest => '\x7d' :: fill arguments rest
  | '\x7b' :: rest =>
    match h : argumentAt arguments rest with
    | some (argument, after) =>
      have := length_argumentAt h
      argument ++ fill arguments after
    | none => '\x7b' :: fill arguments rest
  | c :: rest => c :: fill arguments rest
termination_by text => text.length

def filled (template : String) (arguments : List String) : String :=
  String.ofList (fill (arguments.map String.toList) template.toList)

end MessageCatalog.Text
