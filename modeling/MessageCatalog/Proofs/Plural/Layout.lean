import MessageCatalog.Proofs.Plural.Boundaries
import MessageCatalog.Proofs.Text.Runs

/-! Token layouts, defined from the text alone: gaps, maximal digit runs, longest signs, and what
stops tokens. Every text has a layout up to its end or first fault. -/
namespace MessageCatalog.Plural

section Signs

variable {kind : Kind} {c d : Char} {text rest : List Char} {size : Nat}

theorem symbol_of_singleKind (h : singleKind c = some kind) : kind.symbol.toList = [c] := by
  unfold singleKind at h
  split at h <;> cases h <;> rfl

theorem symbol_of_pairKind (h : pairKind c d = some kind) : kind.symbol.toList = [c, d] := by
  unfold pairKind at h
  split at h <;> cases h <;> rfl

theorem Kind.symbol_of_isSign (sign : kind.isSign = true) :
    (∃ c, kind.symbol.toList = [c] ∧ singleKind c = some kind) ∨
    ∃ c d, kind.symbol.toList = [c, d] ∧ pairKind c d = some kind := by
  cases kind with
  | number _ => cases sign
  | finish => cases sign
  | op o =>
    cases o
    case eq | ne | le | ge | and | or => exact .inr ⟨_, _, rfl, rfl⟩
    all_goals exact .inl ⟨_, rfl, rfl⟩
  | _ => exact .inl ⟨_, rfl, rfl⟩

theorem Kind.exists_symbol_cons (sign : kind.isSign = true) :
    ∃ c more, kind.symbol.toList = c :: more := by
  rcases kind.symbol_of_isSign sign with ⟨c, symbol, -⟩ | ⟨c, d, symbol, -⟩
  · exact ⟨c, [], symbol⟩
  · exact ⟨c, [d], symbol⟩

/-- The first character of a pair is a sign of its own or valid only when doubled. -/
theorem first_of_pairKind (h : pairKind c d = some kind) :
    (∃ single, singleKind c = some single) ∨ (c ∈ ['=', '&', '|'] ∧ d = c) := by
  unfold pairKind at h
  split at h
  case h_7 => cases h
  all_goals first | exact .inl ⟨_, rfl⟩ | exact .inr (by decide)

theorem needsPartner_iff : needsPartner c = true ↔ c ∈ ['=', '&', '|'] := by
  simp [needsPartner, or_assoc]

theorem pairKind_of_half (half : c ∈ ['=', '&', '|']) : ∃ kind, pairKind c c = some kind := by
  simp only [List.mem_cons, List.not_mem_nil, or_false] at half
  rcases half with rfl | rfl | rfl <;> exact ⟨_, rfl⟩

theorem plain_of_half (half : c ∈ ['=', '&', '|']) :
    isGap c = false ∧ c.isDigit = false ∧ singleKind c = none ∧ Passed c := by
  simp only [List.mem_cons, List.not_mem_nil, or_false] at half
  rcases half with rfl | rfl | rfl <;> decide

/-- Longest match. -/
structure StartsWithSign (kind : Kind) (text : List Char) : Prop where
  sign : kind.isSign = true
  here : kind.symbol.toList <+: text
  longest : ∀ other : Kind, other.isSign = true → other.symbol.toList <+: text →
    other.symbol.toList.length ≤ kind.symbol.toList.length

theorem signAt_of_pairKind (pair : pairKind c d = some kind) :
    signAt (c :: d :: rest) = some (kind, 2) := by
  simp [signAt, pair]

theorem signAt_of_startsWithSign (h : StartsWithSign kind text) :
    signAt text = some (kind, kind.symbol.toList.length) := by
  obtain ⟨rest, rfl⟩ := h.here
  rcases kind.symbol_of_isSign h.sign with ⟨c, symbol, single⟩ | ⟨c, d, symbol, pair⟩
  · -- a pair that starts here would be a longer sign
    have alone : rest.head?.bind (pairKind c) = none := by
      refine Option.eq_none_iff_forall_ne_some.2 fun other both => ?_
      obtain ⟨d, head, pair⟩ := Option.bind_eq_some_iff.1 both
      obtain ⟨more, rfl⟩ := List.head?_eq_some_iff.1 head
      have longest := h.longest other (pairKind_isSign pair)
      rw [symbol_of_pairKind pair, symbol] at longest
      exact absurd (longest ⟨more, rfl⟩) (by simp)
    rw [symbol, List.singleton_append, signAt, alone, single]
    rfl
  · rw [symbol]
    exact signAt_of_pairKind pair

theorem startsWithSign_of_signAt (h : signAt text = some (kind, size)) :
    StartsWithSign kind text := by
  cases text with
  | nil => cases h
  | cons c rest =>
    rw [signAt] at h
    split at h
    next pairing =>
      obtain ⟨d, head, pair⟩ := Option.bind_eq_some_iff.1 pairing
      obtain ⟨more, rfl⟩ := List.head?_eq_some_iff.1 head
      cases h
      have symbol := symbol_of_pairKind pair
      refine ⟨pairKind_isSign pair, symbol ▸ ⟨more, rfl⟩, fun other sign _ => ?_⟩
      rw [symbol]
      rcases other.symbol_of_isSign sign with ⟨_, one, -⟩ | ⟨_, _, two, -⟩
      · simp [one]
      · simp [two]
    next alone =>
      obtain ⟨single, known, same⟩ := Option.map_eq_some_iff.1 h
      cases same
      have symbol := symbol_of_singleKind known
      refine ⟨singleKind_isSign known, symbol ▸ ⟨rest, rfl⟩, fun other sign starts => ?_⟩
      rw [symbol]
      rcases other.symbol_of_isSign sign with ⟨_, one, -⟩ | ⟨e, d, two, pair⟩
      · simp [one]
      · rw [two] at starts
        obtain ⟨more, same⟩ := starts
        cases same
        exact absurd pair (Option.eq_none_iff_forall_ne_some.1 alone _)

/-- Sign look-up is complete. -/
theorem signAt_ne_none (sign : kind.isSign = true) (here : kind.symbol.toList <+: text) :
    signAt text ≠ none := by
  obtain ⟨rest, rfl⟩ := here
  rcases kind.symbol_of_isSign sign with ⟨c, symbol, single⟩ | ⟨c, d, symbol, pair⟩
  · rw [symbol, List.singleton_append, signAt]
    split
    · exact Option.some_ne_none _
    · simp [single]
  · rw [symbol]
    exact ne_of_eq_of_ne (signAt_of_pairKind pair) (Option.some_ne_none _)

end Signs

/-- A maximal run of digits. -/
structure DigitRun (before digits rest : List Char) : Prop where
  filled : digits ≠ []
  digits : ∀ c ∈ digits, c.isDigit = true
  starts : ∀ c ∈ before.getLast?, c.isDigit = false
  ends : ∀ c ∈ rest.head?, c.isDigit = false

inductive Spelled (before : List Char) : Kind → List Char → List Char → Prop where
  | number {v : Int64} {digits rest : List Char} (run : DigitRun before digits rest)
      (value : v.toInt = Nat.ofDigitChars 10 digits 0) : Spelled before (.number v) digits rest
  | sign {kind : Kind} {rest : List Char}
      (starts : StartsWithSign kind (kind.symbol.toList ++ rest)) :
      Spelled before kind kind.symbol.toList rest

/-- End of the expression or fault, at a position without gap. -/
inductive Stops (before : List Char) : List Char → Except SyntaxError Token → Prop where
  | finish {rest : List Char} (ends : ∀ c ∈ rest.head?, endsExpression c = true) :
      Stops before rest (.ok ⟨.finish, byteCount before⟩)
  | tooLarge {digits rest : List Char} (run : DigitRun before digits rest)
      (value : Int64.maxValue.toInt < Nat.ofDigitChars 10 digits 0) :
      Stops before (digits ++ rest) (.error (.invalidNumber (String.ofList digits)))
  | lone {c : Char} {rest : List Char} (half : c ∈ ['=', '&', '|']) (alone : rest.head? ≠ some c) :
      Stops before (c :: rest)
        (.error (.unexpectedChar (rest.headD '\x00') (byteCount before + 1)))
  | nothing {c : Char} {rest : List Char} (solid : isGap c = false)
      (goes : endsExpression c = false) (letter : c.isDigit = false)
      (unknown : ∀ kind : Kind, kind.isSign = true → kind.symbol.toList.head? ≠ some c) :
      Stops before (c :: rest) (.error (.unexpectedChar c (byteCount before)))

/-- Tokens with byte positions, separated by gaps, up to an end or a fault. -/
inductive Laid : List Char → List Char → List Token → Except SyntaxError Token → Prop where
  | token {before gap taken rest : List Char} {kind : Kind} {ts : List Token}
      {outcome : Except SyntaxError Token} (gaps : ∀ c ∈ gap, isGap c = true)
      (spelled : Spelled (before ++ gap) kind taken rest)
      (others : Laid (before ++ gap ++ taken) rest ts outcome) :
      Laid before (gap ++ (taken ++ rest)) (⟨kind, byteCount (before ++ gap)⟩ :: ts) outcome
  | stop {before gap rest : List Char} {outcome : Except SyntaxError Token}
      (gaps : ∀ c ∈ gap, isGap c = true) (stops : Stops (before ++ gap) rest outcome) :
      Laid before (gap ++ rest) [] outcome

def withEnd (ts : List Token) : Except SyntaxError Token → List Token
  | .ok t => ts ++ [t]
  | .error _ => ts

section Pieces

variable {before gap taken rest digits : List Char} {kind : Kind} {c : Char}
  {outcome : Except SyntaxError Token}

theorem DigitRun.passed (run : DigitRun before digits rest) : ∀ c ∈ digits, Passed c :=
  fun c member => passed_of_isDigit (run.digits c member)

theorem Kind.passed_of_isSign (sign : kind.isSign = true) : ∀ c ∈ kind.symbol.toList, Passed c := by
  rcases kind.symbol_of_isSign sign with ⟨c, symbol, single⟩ | ⟨c, d, symbol, pair⟩
  · simp [symbol, passed_of_singleKind single]
  · simp [symbol, passed_of_pairKind pair]

theorem Kind.plain_of_isSign (sign : kind.isSign = true) :
    ∀ c ∈ kind.symbol.toList, c.isDigit = false ∧ isGap c = false := by
  cases kind with
  | number _ => cases sign
  | finish => cases sign
  | op o => cases o <;> exact List.all_iff_forall_prop.1 (by decide)
  | _ => exact List.all_iff_forall_prop.1 (by decide)

theorem Spelled.passed (h : Spelled before kind taken rest) : ∀ c ∈ taken, Passed c := by
  cases h with
  | number run => exact run.passed
  | sign starts => exact kind.passed_of_isSign starts.sign

theorem Spelled.filled (h : Spelled before kind taken rest) : taken ≠ [] := by
  cases h with
  | number run => exact run.filled
  | sign starts =>
    obtain ⟨c, more, symbol⟩ := kind.exists_symbol_cons starts.sign
    exact symbol ▸ List.cons_ne_nil c more

theorem Spelled.ne_finish (h : Spelled before kind taken rest) : kind ≠ .finish := by
  rintro rfl
  cases h with
  | sign starts => cases starts.sign

theorem Spelled.solid (h : Spelled before kind taken rest) :
    ∀ c ∈ (taken ++ rest).head?, isGap c = false := by
  intro c head
  rw [List.head?_append_of_ne_nil _ h.filled] at head
  have member := List.mem_of_mem_head? head
  cases h with
  | number run => exact isGap_of_isDigit (run.digits c member)
  | sign starts => exact (kind.plain_of_isSign starts.sign c member).2

end Pieces

section Existence

variable {before gap taken rest text : List Char} {kind : Kind} {c : Char}

def Parted (before rest : List Char) : Prop :=
  ∀ c ∈ before.getLast?, c.isDigit = true → ∀ d ∈ rest.head?, d.isDigit = false

theorem Parted.past_gap (h : Parted before (gap ++ rest)) (gaps : ∀ c ∈ gap, isGap c = true) :
    Parted (before ++ gap) rest := by
  rcases gap.eq_nil_or_concat with rfl | ⟨front, last, rfl⟩
  · simpa using h
  · intro c here digit
    obtain rfl : last = c := by simpa using here
    have gap : isGap last = true := gaps last (by simp)
    rw [isGap_of_isDigit digit] at gap
    cases gap

theorem Spelled.parted (h : Spelled before kind taken rest) : Parted (before ++ taken) rest := by
  intro c here digit
  have last : c ∈ taken.getLast? := by
    rw [List.getLast?_append_of_ne_nil _ h.filled] at here
    exact here
  cases h with
  | number run => exact run.ends
  | sign starts =>
    have sign := (kind.plain_of_isSign starts.sign c (List.mem_of_mem_getLast? last)).1
    rw [digit] at sign
    cases sign

theorem unknown_of_signAt (none : signAt (c :: rest) = none) (whole : c ∉ ['=', '&', '|']) :
    ∀ kind : Kind, kind.isSign = true → kind.symbol.toList.head? ≠ some c := by
  intro kind sign head
  have clear {single : Kind} (known : singleKind c = some single) : False :=
    signAt_ne_none (singleKind_isSign known) (symbol_of_singleKind known ▸ ⟨rest, rfl⟩) none
  rcases kind.symbol_of_isSign sign with ⟨d, symbol, known⟩ | ⟨d, e, symbol, pair⟩
  · rw [symbol] at head
    cases head
    exact clear known
  · rw [symbol] at head
    cases head
    rcases first_of_pairKind pair with ⟨single, known⟩ | ⟨half, -⟩
    · exact clear known
    · exact whole half

theorem alone_of_signAt (none : signAt (c :: rest) = none) (half : c ∈ ['=', '&', '|']) :
    rest.head? ≠ some c := by
  intro head
  obtain ⟨more, rfl⟩ := List.head?_eq_some_iff.1 head
  obtain ⟨kind, pair⟩ := pairKind_of_half half
  rw [signAt_of_pairKind pair] at none
  cases none

theorem tooLarge_iff {n : Nat} : Int64.maxValue.toInt < n ↔ ¬n < numberLimit := by
  have limit : Int64.maxValue.toInt + 1 = numberLimit := by decide
  omega

/-- The digits at a place are a number or too large for one. -/
theorem spelled_or_stops_of_isDigit (parted : Parted before (c :: rest)) (digit : c.isDigit = true) :
    (∃ kind taken after, c :: rest = taken ++ after ∧ Spelled before kind taken after) ∨
    ∃ outcome, Stops before (c :: rest) outcome := by
  let digits := (c :: rest).takeWhile Char.isDigit
  let after := (c :: rest).dropWhile Char.isDigit
  have split : c :: rest = digits ++ after := List.takeWhile_append_dropWhile.symm
  have run : DigitRun before digits after := by
    refine ⟨by simp [digits, digit], fun d => List.mem_takeWhile_imp, fun d last => ?_,
      Text.eq_false_of_mem_head?_dropWhile⟩
    -- the place before is no digit, or the run would go on from there
    refine Bool.eq_false_iff.2 fun other => ?_
    have first := parted d last other c rfl
    rw [digit] at first
    cases first
  rw [split]
  by_cases fits : Nat.ofDigitChars 10 digits 0 < numberLimit
  · exact .inl ⟨_, _, _, rfl, .number run (Int64.toInt_ofNat_of_lt fits)⟩
  · exact .inr ⟨_, .tooLarge run (tooLarge_iff.2 fits)⟩

/-- At a position without gap a token is spelled or the tokens stop. -/
theorem spelled_or_stops (parted : Parted before text) (solid : ∀ c ∈ text.head?, isGap c = false) :
    (∃ kind taken rest, text = taken ++ rest ∧ Spelled before kind taken rest) ∨
    ∃ outcome, Stops before text outcome := by
  cases text with
  | nil => exact .inr ⟨_, .finish (by simp)⟩
  | cons c more =>
    cases ends : endsExpression c with
    | true => exact .inr ⟨_, .finish (by simpa using ends)⟩
    | false =>
    cases digit : c.isDigit with
    | true => exact spelled_or_stops_of_isDigit parted digit
    | false =>
    cases sign : signAt (c :: more) with
    | some found =>
      obtain ⟨kind, size⟩ := found
      have starts := startsWithSign_of_signAt sign
      obtain ⟨rest, split⟩ := starts.here
      exact .inl ⟨_, _, rest, split.symm, .sign (split ▸ starts)⟩
    | none =>
      by_cases half : c ∈ ['=', '&', '|']
      · exact .inr ⟨_, .lone half (alone_of_signAt sign half)⟩
      · exact .inr ⟨_, .nothing (solid c rfl) ends digit (unknown_of_signAt sign half)⟩

/-- By induction on the length of the remaining text. -/
theorem exists_laid (before rest : List Char) (parted : Parted before rest) :
    ∃ ts outcome, Laid before rest ts outcome := by
  induction total : rest.length using Nat.strongRecOn generalizing before rest with
  | ind size ih =>
  let gap := rest.takeWhile isGap
  let text := rest.dropWhile isGap
  have split : rest = gap ++ text := List.takeWhile_append_dropWhile.symm
  have gaps : ∀ c ∈ gap, isGap c = true := fun c => List.mem_takeWhile_imp
  rw [split] at parted
  rcases spelled_or_stops (parted.past_gap gaps) Text.eq_false_of_mem_head?_dropWhile with
    ⟨kind, taken, later, here, spelled⟩ | ⟨outcome, stops⟩
  · have shorter : later.length < size := by
      have positive := List.length_pos_iff.2 spelled.filled
      rw [split, here, List.length_append, List.length_append] at total
      omega
    obtain ⟨ts, outcome, others⟩ := ih _ shorter _ later spelled.parted rfl
    rw [split, here]
    exact ⟨_, _, .token gaps spelled others⟩
  · rw [split]
    exact ⟨_, _, .stop gaps stops⟩

theorem exists_layout (text : List Char) : ∃ ts outcome, Laid [] text ts outcome :=
  exists_laid [] text (by simp [Parted])

end Existence

section Order

variable {before rest taken : List Char} {ts : List Token} {t : Token}
  {outcome : Except SyntaxError Token}

@[simp] theorem withEnd_cons : withEnd (t :: ts) outcome = t :: withEnd ts outcome := by
  cases outcome <;> rfl

theorem Laid.le_position (h : Laid before rest ts outcome) :
    ∀ t ∈ withEnd ts outcome, byteCount before ≤ t.position := by
  induction h with
  | @token before gap taken _ _ _ _ _ _ _ ih =>
    rw [withEnd_cons, List.forall_mem_cons]
    refine ⟨by simp, fun t member => ?_⟩
    have later := ih t member
    rw [List.append_assoc, byteCount_append] at later
    exact Nat.le_of_add_right_le later
  | stop _ stops =>
    intro t member
    cases stops with
    | finish =>
      obtain rfl := List.mem_singleton.1 member
      simp
    | _ => cases member

/-- Tokens do not overlap. -/
theorem Laid.pairwise (h : Laid before rest ts outcome) :
    (withEnd ts outcome).Pairwise fun t u => t.position < u.position := by
  induction h with
  | token _ spelled others ih =>
    rw [withEnd_cons, List.pairwise_cons]
    refine ⟨fun u member => ?_, ih⟩
    have later := others.le_position u member
    have positive := byteCount_pos spelled.filled
    rw [byteCount_append] at later
    simp only
    omega
  | stop _ stops =>
    cases stops with
    | finish => exact List.pairwise_singleton _ _
    | _ => exact .nil

/-- The end token stands where the expression ends. -/
theorem Laid.end_eq (h : Laid before rest ts outcome) (ends : outcome = .ok t) :
    t = ⟨.finish, byteCount (before ++ rest.takeWhile fun c => !endsExpression c)⟩ := by
  have goes {text : List Char} (passed : ∀ c ∈ text, Passed c) :
      ∀ c ∈ text, (!endsExpression c) = true := fun c member => by simp [(passed c member).2]
  induction h with
  | token gaps spelled _ ih =>
    have first := goes fun c member => passed_of_isGap (gaps c member)
    rw [ih ends, List.takeWhile_append_of_pos first,
      List.takeWhile_append_of_pos (goes spelled.passed)]
    simp
  | @stop _ _ rest _ gaps stops =>
    have first := goes fun c member => passed_of_isGap (gaps c member)
    cases stops with
    | finish closes =>
      cases ends
      have none : rest.takeWhile (fun c => !endsExpression c) = [] := by
        cases rest with
        | nil => rfl
        | cons c rest => exact List.takeWhile_cons_of_neg (by simp [closes c rfl])
      rw [List.takeWhile_append_of_pos first, none, List.append_nil]
    | _ => cases ends

end Order
end MessageCatalog.Plural
