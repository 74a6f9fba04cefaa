import MessageCatalog.Proofs.Plural.SameTokens

/-! Positions of faults: refused tokens, the token where levels end, and lexer positions. Each is a
place of the text where the named item stands. -/
namespace MessageCatalog.Plural

/-- The text starts with a spelling of the token. -/
def Kind.Starts (text : List Char) : Kind → Prop
  | .number _ => ∃ c ∈ text.head?, c.isDigit = true
  | .finish => ∀ c ∈ text.head?, endsExpression c = true
  | kind => kind.symbol.toList <+: text

def SyntaxError.position? : SyntaxError → Option Nat
  | unexpectedChar _ position => some position
  | unexpectedToken _ _ position => some position
  | tooDeeplyNested position => some position
  | insideCharacter position => some position
  | invalidNumber _ => none
  | missingParameter _ => none

/-- What each fault names in the text. -/
inductive Names (text : String) : SyntaxError → Prop where
  | char {before rest : List Char} {c : Char} (split : text.toList = before ++ c :: rest) :
      Names text (.unexpectedChar c (byteCount before))
  | nothing : Names text (.unexpectedChar '\x00' text.utf8ByteSize)
  | token {before rest : List Char} {kind : Kind} {wanted : Wanted}
      (split : text.toList = before ++ rest) (starts : kind.Starts rest) :
      Names text (.unexpectedToken wanted kind (byteCount before))
  | number {before digits rest : List Char} (split : text.toList = before ++ (digits ++ rest))
      (run : DigitRun before digits rest)
      (value : Int64.maxValue.toInt < Nat.ofDigitChars 10 digits 0) :
      Names text (.invalidNumber (String.ofList digits))
  | depth {ts : List Token} {outcome : Except SyntaxError Token} {t : Token}
      (given : (Lexer.ofText text.toList).Gives ts outcome) (member : t ∈ withEnd ts outcome) :
      Names text (.tooDeeplyNested t.position)

section Places

variable {before taken rest : List Char} {kind : Kind} {ts : List Token} {t : Token}
  {outcome : Except SyntaxError Token} {cause : SyntaxError} {text : String}

theorem starts_of_isSign (sign : kind.isSign = true) :
    kind.Starts rest ↔ kind.symbol.toList <+: rest := by
  cases kind with
  | number _ => cases sign
  | finish => cases sign
  | _ => rfl

theorem Spelled.starts (h : Spelled before kind taken rest) : kind.Starts (taken ++ rest) := by
  cases h with
  | number run =>
    obtain ⟨c, more, rfl⟩ := List.exists_cons_of_ne_nil run.filled
    exact ⟨c, rfl, run.digits c List.mem_cons_self⟩
  | sign starts => exact (starts_of_isSign starts.sign).2 starts.here

/-- The end or fault of a layout stands at some position of the text. -/
theorem Laid.stops (h : Laid before rest ts outcome) :
    ∃ passed after, rest = passed ++ after ∧ Stops (before ++ passed) after outcome := by
  induction h with
  | @token before gap taken _ _ _ _ _ _ _ ih =>
    obtain ⟨passed, after, rfl, stops⟩ := ih
    refine ⟨gap ++ taken ++ passed, after, by simp, ?_⟩
    simpa using stops
  | @stop before gap rest _ _ stops => exact ⟨gap, rest, rfl, stops⟩

/-- Each token of a layout is spelled at its position. -/
theorem Laid.starts (h : Laid before rest ts outcome) :
    ∀ t ∈ withEnd ts outcome, ∃ passed after, rest = passed ++ after ∧
      t.position = byteCount (before ++ passed) ∧ t.kind.Starts after := by
  induction h with
  | @token before gap taken rest kind _ _ _ spelled _ ih =>
    rw [withEnd_cons, List.forall_mem_cons]
    refine ⟨⟨gap, taken ++ rest, rfl, rfl, spelled.starts⟩, fun t member => ?_⟩
    obtain ⟨passed, after, rfl, position, starts⟩ := ih t member
    refine ⟨gap ++ taken ++ passed, after, by simp, ?_, starts⟩
    simpa using position
  | @stop before gap rest _ _ stops =>
    intro t member
    cases stops with
    | finish ends =>
      obtain rfl := List.mem_singleton.1 member
      exact ⟨gap, rest, rfl, rfl, ends⟩
    | _ => cases member

theorem Stops.names (h : Stops before rest (.error cause)) (split : text.toList = before ++ rest) :
    Names text cause := by
  cases h with
  | tooLarge run value => exact .number split run value
  | @lone c rest half _ =>
    obtain ⟨-, -, -, narrow, -⟩ := plain_of_half half
    have after : byteCount (before ++ [c]) = byteCount before + 1 := by simp [narrow]
    have split : text.toList = (before ++ [c]) ++ rest := by simp [split]
    rw [← after]
    cases rest with
    | nil =>
      rw [List.append_nil] at split
      rw [← split, byteCount_toList]
      exact .nothing
    | cons d rest => exact .char split
  | nothing => exact .char split

theorem Blames.names (h : Blames (withEnd ts outcome) cause) (laid : Laid [] text.toList ts outcome) :
    Names text cause := by
  cases h with
  | token member wanted =>
    obtain ⟨passed, after, split, position, starts⟩ := laid.starts _ member
    rw [position]
    exact .token split starts
  | depth member => exact .depth laid.gives member

theorem Names.atCharacter (h : Names text cause) {position : Nat}
    (here : cause.position? = some position) : AtCharacter text position := by
  rw [atCharacter_iff]
  cases h with
  | char split =>
    cases here
    exact ⟨_, _, split, rfl⟩
  | nothing =>
    cases here
    exact ⟨text.toList, [], by simp, (byteCount_toList text).symm⟩
  | token split =>
    cases here
    exact ⟨_, _, split, rfl⟩
  | number => cases here
  | depth given member =>
    cases here
    obtain ⟨passed, after, split, position, -⟩ := ((gives_iff_laid text _ _).1 given).starts _ member
    exact ⟨passed, after, split, position⟩

theorem AtCharacter.le_utf8ByteSize {position : Nat} (h : AtCharacter text position) :
    position ≤ text.utf8ByteSize := by
  obtain ⟨before, after, split, rfl⟩ := atCharacter_iff.1 h
  rw [← byteCount_toList, split, byteCount_append]
  exact Nat.le_add_right _ _

end Places

/-- Every fault names what the text has at its position, which is a character or the end. -/
theorem parse_error_names (text : String) (cause : SyntaxError) (fails : parse text = .error cause) :
    Names text cause ∧ ∀ position, cause.position? = some position →
      position ≤ text.utf8ByteSize ∧ AtCharacter text position := by
  have names : Names text cause := by
    obtain ⟨ts, outcome, laid⟩ := exists_layout text.toList
    rcases parse_alike (.inl rfl) laid.gives laid.gives with
      ⟨e, read, -⟩ | ⟨s, t, read, -, ⟨fault, -⟩ | ⟨-, blames⟩⟩
    · rw [fails] at read
      cases read
    · rw [fails] at read
      cases read
      obtain ⟨passed, after, split, stops⟩ := laid.stops
      exact (fault ▸ stops).names split
    · rw [fails] at read
      cases read
      exact blames.names laid
  refine ⟨names, fun position here => ?_⟩
  have place := names.atCharacter here
  exact ⟨place.le_utf8ByteSize, place⟩

/-- The second half of a doubled sign is missing before a character of two bytes. -/
theorem parse_error_names_lone :
    parse "n &é" = .error (.unexpectedChar 'é' 3) ∧ Names "n &é" (.unexpectedChar 'é' 3) ∧
      AtCharacter "n &é" 3 := by
  have fails : parse "n &é" = .error (.unexpectedChar 'é' 3) := by decide +kernel
  obtain ⟨names, places⟩ := parse_error_names _ _ fails
  exact ⟨fails, names, (places 3 rfl).2⟩

end MessageCatalog.Plural
