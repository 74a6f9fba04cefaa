import MessageCatalog.Proofs.Plural.Alphabet
import MessageCatalog.Proofs.Plural.Calls
import MessageCatalog.Proofs.Plural.Tokens

/-! Lexer positions after any number of calls. Gaps and tokens consist of one-byte characters; a
wider character is refused after its first byte, and then no call gives anything any more. -/
namespace MessageCatalog.Plural

section Bytes

def byteCount (text : List Char) : Nat := (String.ofList text).utf8ByteSize

@[simp] theorem byteCount_nil : byteCount [] = 0 := rfl

@[simp] theorem byteCount_cons (c : Char) (text : List Char) :
    byteCount (c :: text) = c.utf8Size + byteCount text := by
  simp [byteCount, String.ofList_cons]

@[simp] theorem byteCount_append (a b : List Char) :
    byteCount (a ++ b) = byteCount a + byteCount b := by
  simp [byteCount, String.ofList_append]

theorem byteCount_eq_length {text : List Char} (narrow : ∀ c ∈ text, c.utf8Size = 1) :
    byteCount text = text.length := by
  induction text with
  | nil => rfl
  | cons c text ih =>
    obtain ⟨first, others⟩ := List.forall_mem_cons.1 narrow
    rw [byteCount_cons, first, ih others, List.length_cons, Nat.add_comm]

theorem byteCount_toList (text : String) : byteCount text.toList = text.utf8ByteSize := by
  rw [byteCount, String.ofList_toList]

theorem byteCount_pos {taken : List Char} (filled : taken ≠ []) : 0 < byteCount taken := by
  obtain ⟨c, more, rfl⟩ := List.exists_cons_of_ne_nil filled
  rw [byteCount_cons]
  exact Nat.lt_of_lt_of_le c.utf8Size_pos (Nat.le_add_right _ _)

/-- A byte offset of a character or of the end. -/
def AtCharacter (text : String) (position : Nat) : Prop :=
  (⟨position⟩ : String.Pos.Raw).IsValid text

theorem atCharacter_iff {text : String} {position : Nat} :
    AtCharacter text position ↔
      ∃ before after, text.toList = before ++ after ∧ position = byteCount before := by
  rw [AtCharacter, String.Pos.Raw.isValid_iff_exists_append]
  constructor
  · rintro ⟨before, after, rfl, count⟩
    refine ⟨before.toList, after.toList, String.toList_append, ?_⟩
    rw [byteCount, String.ofList_toList]
    exact congrArg String.Pos.Raw.byteIdx count
  · rintro ⟨before, after, split, rfl⟩
    refine ⟨String.ofList before, String.ofList after, ?_, rfl⟩
    rw [← String.ofList_append, ← split, String.ofList_toList]

/-- One byte into a wider character there is no other. -/
theorem not_atCharacter {text : String} {before after : List Char} {c : Char}
    (split : text.toList = before ++ c :: after) (wide : c.utf8Size ≠ 1) :
    ¬AtCharacter text (byteCount before + 1) := by
  intro here
  obtain ⟨first, last, same, count⟩ := atCharacter_iff.1 here
  have size := c.utf8Size_pos
  rcases List.append_eq_append_iff.1 (split.symm.trans same) with ⟨more, rfl, later⟩ | ⟨more, rfl, -⟩
  · cases more with
    | nil => simp at count
    | cons d more =>
      obtain ⟨rfl, -⟩ := List.cons.inj later
      rw [byteCount_append, byteCount_cons] at count
      omega
  · rw [byteCount_append] at count
    omega

end Bytes

section Characters

/-- One-byte characters that do not end an expression. -/
def Passed (c : Char) : Prop := c.utf8Size = 1 ∧ endsExpression c = false

instance : DecidablePred Passed := fun _ => inferInstanceAs (Decidable (_ ∧ _))

variable {c d : Char} {kind : Kind}

theorem utf8Size_of_endsExpression (ends : endsExpression c = true) : c.utf8Size = 1 := by
  simp only [endsExpression, Bool.or_eq_true, beq_iff_eq] at ends
  rcases ends with rfl | rfl <;> decide

theorem endsExpression_of_wide (wide : c.utf8Size ≠ 1) : endsExpression c = false := by
  apply Bool.eq_false_iff.2
  exact mt utf8Size_of_endsExpression wide

theorem passed_of_isGap (gap : isGap c = true) : Passed c := by
  simp only [isGap, Bool.or_eq_true, beq_iff_eq] at gap
  rcases gap with (rfl | rfl) | rfl <;> decide

theorem passed_of_isDigit (digit : c.isDigit = true) : Passed c := by
  have bounds := toNat_of_isDigit digit
  refine ⟨Char.utf8Size_eq_one_iff.2 ?_, (carried_of_isDigit digit).endsExpression⟩
  apply UInt32.le_iff_toNat_le.2
  exact Nat.le_trans bounds.2 (by decide)

theorem passed_of_needsPartner (lone : needsPartner c = true) : Passed c := by
  simp only [needsPartner, Bool.or_eq_true, beq_iff_eq] at lone
  rcases lone with (rfl | rfl) | rfl <;> decide

theorem passed_of_singleKind (single : singleKind c = some kind) : Passed c := by
  unfold singleKind at single
  split at single <;> first | decide | cases single

theorem passed_of_pairKind (pair : pairKind c d = some kind) : Passed c ∧ Passed d := by
  unfold pairKind at pair
  split at pair <;> first | decide | cases pair

theorem passed_of_signAt {text : List Char} {size : Nat} (sign : signAt text = some (kind, size)) :
    ∀ c ∈ text.take size, Passed c := by
  cases text with
  | nil => simp
  | cons c rest =>
    rw [signAt] at sign
    split at sign
    next pairing =>
      obtain ⟨d, head, pair⟩ := Option.bind_eq_some_iff.1 pairing
      obtain ⟨more, rfl⟩ := List.head?_eq_some_iff.1 head
      cases sign
      have both := passed_of_pairKind pair
      simp [both.1, both.2]
    next =>
      obtain ⟨single, known, same⟩ := Option.map_eq_some_iff.1 sign
      cases same
      simp [passed_of_singleKind known]

end Characters

namespace Lexer

def Tells (start : Nat) (taken rest : List Char) : Except SyntaxError Token → Prop
  | .ok token => token.position = start
  | .error (.unexpectedChar c position) =>
    (position = start ∧ taken.head? = some c) ∨
      (position = start + taken.length ∧ c = rest.headD '\x00')
  | .error (.invalidNumber digits) => digits.toList = taken
  | .error _ => False

/-- The outcomes of one call. -/
inductive Comes (l : Lexer) : Except SyntaxError Token × Lexer → Prop where
  | finish (outside : l.inside = false)
      (ends : ∀ c ∈ l.skipGap.rest.head?, endsExpression c = true) :
      Comes l (.ok ⟨.finish, l.skipGap.position⟩, l.skipGap)
  | passing {answer : Except SyntaxError Token} {taken rest : List Char}
      (outside : l.inside = false) (filled : taken ≠ []) (passed : ∀ c ∈ taken, Passed c)
      (here : l.skipGap.rest = taken ++ rest)
      (tells : Tells l.skipGap.position taken rest answer) :
      Comes l (answer, ⟨rest, l.skipGap.position + taken.length, false⟩)
  | refused {c : Char} {rest : List Char} (outside : l.inside = false)
      (here : l.skipGap.rest = c :: rest) (wide : c.utf8Size ≠ 1) :
      Comes l (.error (.unexpectedChar c l.skipGap.position),
        ⟨rest, l.skipGap.position + 1, true⟩)
  | broken (inside : l.inside = true) : Comes l (.error (.insideCharacter l.position), l)

section Tokens

variable {c : Char} {rest : List Char} {position : Nat}

theorem token_of_wide (wide : c.utf8Size ≠ 1) :
    (⟨c :: rest, position, false⟩ : Lexer).token =
      (.error (.unexpectedChar c position), ⟨rest, position + 1, true⟩) := by
  have goes := endsExpression_of_wide wide
  have letter : c.isDigit = false := by
    apply Bool.eq_false_iff.2
    exact fun digit => wide (passed_of_isDigit digit).1
  have alone : needsPartner c = false := by
    apply Bool.eq_false_iff.2
    exact fun lone => wide (passed_of_needsPartner lone).1
  have sign : signAt (c :: rest) = none := by
    apply Option.eq_none_iff_forall_ne_some.2
    rintro ⟨kind, size⟩ sign
    have positive := (signAt_some sign).2.1
    have first : c ∈ (c :: rest).take size := by
      rw [← Nat.sub_add_cancel positive, List.take_succ_cons]
      exact List.mem_cons_self
    exact wide (passed_of_signAt sign c first).1
  simp [token, goes, letter, sign, alone, wide]

theorem token_of_narrow (narrow : c.utf8Size = 1) (goes : endsExpression c = false) :
    ∃ answer taken after, (⟨c :: rest, position, false⟩ : Lexer).token =
        (answer, ⟨after, position + taken.length, false⟩) ∧
      taken ≠ [] ∧ (∀ d ∈ taken, Passed d) ∧ c :: rest = taken ++ after ∧
      Tells position taken after answer := by
  have one : ∀ d ∈ [c], Passed d := List.forall_mem_singleton.2 ⟨narrow, goes⟩
  cases digit : c.isDigit with
  | true =>
    have digits : ∀ d ∈ (c :: rest).takeWhile Char.isDigit, Passed d := fun d member =>
      passed_of_isDigit (List.mem_takeWhile_imp member)
    have filled : (c :: rest).takeWhile Char.isDigit ≠ [] := by simp [digit]
    have split : c :: rest =
        (c :: rest).takeWhile Char.isDigit ++ (c :: rest).dropWhile Char.isDigit :=
      List.takeWhile_append_dropWhile.symm
    have number : (⟨c :: rest, position, false⟩ : Lexer).token =
        (⟨c :: rest, position, false⟩ : Lexer).number := by
      simp [token, goes, digit]
    rw [number, Lexer.number]
    split
    · exact ⟨_, _, _, rfl, filled, digits, split, rfl⟩
    · exact ⟨_, _, _, rfl, filled, digits, split, String.toList_ofList⟩
  | false =>
    cases sign : signAt (c :: rest) with
    | some found =>
      obtain ⟨kind, size⟩ := found
      obtain ⟨-, positive, reaches⟩ := signAt_some sign
      have count : ((c :: rest).take size).length = size := by
        rw [List.length_take, Nat.min_eq_left reaches]
      have filled : (c :: rest).take size ≠ [] := List.ne_nil_of_length_pos (by omega)
      refine ⟨.ok ⟨kind, position⟩, (c :: rest).take size, (c :: rest).drop size, ?_, filled,
        passed_of_signAt sign, (List.take_append_drop ..).symm, rfl⟩
      simp [token, goes, digit, sign, count]
    | none =>
      cases lone : needsPartner c with
      | true =>
        refine ⟨.error (.unexpectedChar (rest.headD '\x00') (position + 1)), [c], rest, ?_,
          List.cons_ne_nil _ _, one, rfl, .inr ⟨rfl, rfl⟩⟩
        simp [token, goes, digit, sign, lone]
      | false =>
        refine ⟨.error (.unexpectedChar c position), [c], rest, ?_, List.cons_ne_nil _ _, one, rfl,
          .inl ⟨rfl, rfl⟩⟩
        simp [token, goes, digit, sign, lone, narrow]

theorem token_of_ends {l : Lexer} (ends : ∀ c ∈ l.rest.head?, endsExpression c = true) :
    l.token = (.ok ⟨.finish, l.position⟩, l) := by
  obtain ⟨rest, position, inside⟩ := l
  cases rest with
  | nil => rfl
  | cons c rest => simp [token, ends c rfl]

end Tokens

theorem comes_next (l : Lexer) : l.Comes l.next := by
  cases outside : l.inside with
  | true =>
    have stays : l.next = (.error (.insideCharacter l.position), l) := if_pos outside
    rw [stays]
    exact .broken outside
  | false =>
    have goes : l.next = l.skipGap.token := by simp [next, outside]
    rw [goes]
    by_cases ends : ∀ c ∈ l.skipGap.rest.head?, endsExpression c = true
    · rw [token_of_ends ends]
      exact .finish outside ends
    · simp only [not_forall, Bool.not_eq_true] at ends
      obtain ⟨c, head, continues⟩ := ends
      obtain ⟨rest, here⟩ := List.head?_eq_some_iff.1 head
      have place : l.skipGap = ⟨c :: rest, l.skipGap.position, false⟩ := by rw [← here, ← outside]; rfl
      by_cases narrow : c.utf8Size = 1
      · obtain ⟨answer, taken, after, passing, filled, passed, split, tells⟩ :=
          @token_of_narrow c rest l.skipGap.position narrow continues
        rw [place, passing]
        exact .passing outside filled passed (here.trans split) tells
      · rw [place, token_of_wide narrow]
        exact .refused outside here narrow

end Lexer

section Standing

variable {text : String}

/-- Positions point at characters. -/
def Answers (text : String) : Except SyntaxError Token → Prop
  | .ok token => AtCharacter text token.position
  | .error (.unexpectedChar c position) =>
    ∃ before after, text.toList = before ++ after ∧ position = byteCount before ∧
      c = after.headD '\x00'
  | .error (.invalidNumber digits) => digits.toList <:+: text.toList
  | .error _ => False

namespace Lexer

structure StandsIn (l : Lexer) (text : String) : Prop where
  outside : l.inside = false
  passed : ∃ before, text.toList = before ++ l.rest ∧ l.position = byteCount before

structure BrokenIn (l : Lexer) (text : String) : Prop where
  inside : l.inside = true
  passed : ∃ before c, text.toList = before ++ c :: l.rest ∧ c.utf8Size ≠ 1 ∧
    l.position = byteCount before + 1

/-- Refuses a multibyte character after its first byte. -/
structure Refuses (l : Lexer) : Prop where
  outside : l.inside = false
  wide : ∃ c ∈ l.skipGap.rest.head?, c.utf8Size ≠ 1

variable {l : Lexer}

theorem standsIn_ofText (text : String) : (ofText text.toList).StandsIn text where
  outside := rfl
  passed := ⟨[], rfl, rfl⟩

theorem StandsIn.atCharacter (h : l.StandsIn text) : AtCharacter text l.position := by
  obtain ⟨before, split, position⟩ := h.passed
  exact atCharacter_iff.2 ⟨before, l.rest, split, position⟩

theorem BrokenIn.not_atCharacter (h : l.BrokenIn text) : ¬AtCharacter text l.position := by
  obtain ⟨before, c, split, wide, position⟩ := h.passed
  rw [position]
  exact Plural.not_atCharacter split wide

theorem StandsIn.pass (h : l.StandsIn text) {taken rest : List Char}
    (narrow : ∀ c ∈ taken, c.utf8Size = 1) (here : l.rest = taken ++ rest) :
    (⟨rest, l.position + taken.length, false⟩ : Lexer).StandsIn text where
  outside := rfl
  passed := by
    obtain ⟨before, split, position⟩ := h.passed
    refine ⟨before ++ taken, ?_, ?_⟩
    · rw [split, here, List.append_assoc]
    · rw [byteCount_append, byteCount_eq_length narrow, position]

theorem passed_of_mem_gap {c : Char} (member : c ∈ l.rest.takeWhile isGap) : Passed c :=
  passed_of_isGap (List.mem_takeWhile_imp member)

theorem rest_eq_gap_append (l : Lexer) : l.rest = l.rest.takeWhile isGap ++ l.skipGap.rest :=
  List.takeWhile_append_dropWhile.symm

theorem StandsIn.skipGap (h : l.StandsIn text) : l.skipGap.StandsIn text := by
  have passed := h.pass (fun c member => (passed_of_mem_gap member).1) l.rest_eq_gap_append
  rwa [← h.outside] at passed

theorem StandsIn.answers (h : l.StandsIn text) {taken rest : List Char}
    {answer : Except SyntaxError Token} (narrow : ∀ c ∈ taken, c.utf8Size = 1)
    (here : l.rest = taken ++ rest) (tells : Tells l.position taken rest answer) :
    Answers text answer := by
  obtain ⟨before, split, position⟩ := h.passed
  cases answer with
  | ok token =>
    have first : token.position = l.position := tells
    rw [Answers, first]
    exact h.atCharacter
  | error cause =>
    cases cause with
    | unexpectedChar c place =>
      rcases tells with ⟨rfl, first⟩ | ⟨rfl, next⟩
      · obtain ⟨more, rfl⟩ := List.head?_eq_some_iff.1 first
        exact ⟨before, l.rest, split, position, by rw [here]; rfl⟩
      · obtain ⟨passed, whole, count⟩ := (h.pass narrow here).passed
        exact ⟨passed, rest, whole, count, next⟩
    | invalidNumber digits =>
      have same : digits.toList = taken := tells
      refine ⟨before, rest, ?_⟩
      rw [split, here, same, List.append_assoc]
    | _ => exact tells

/-- One call from a character: its answer points at characters, and it stops at one unless it
refuses a wider one. -/
theorem StandsIn.call (h : l.StandsIn text) :
    Answers text l.next.1 ∧ (l.next.2.StandsIn text ∨ l.next.2.BrokenIn text) := by
  have start := h.skipGap
  cases call : l.next with
  | mk answer after =>
  have comes := l.comes_next
  rw [call] at comes
  cases comes with
  | finish _ _ => exact ⟨start.atCharacter, .inl start⟩
  | passing _ _ passed here tells =>
    have narrow := fun c member => (passed c member).1
    exact ⟨start.answers narrow here tells, .inl (start.pass narrow here)⟩
  | @refused c rest _ here wide =>
    obtain ⟨before, split, position⟩ := start.passed
    rw [here] at split
    have broken : (⟨rest, l.skipGap.position + 1, true⟩ : Lexer).BrokenIn text :=
      ⟨rfl, before, c, split, wide, by rw [position]⟩
    exact ⟨⟨before, c :: rest, split, position, rfl⟩, .inr broken⟩
  | broken inside =>
    rw [h.outside] at inside
    cases inside

theorem BrokenIn.next_eq (h : l.BrokenIn text) :
    l.next = (.error (.insideCharacter l.position), l) := if_pos h.inside

/-- A call breaks off inside a character exactly if it refuses a wider one. -/
theorem inside_next_iff : l.next.2.inside = true ↔ l.inside = true ∨ l.Refuses := by
  cases call : l.next with
  | mk answer after =>
  have comes := l.comes_next
  rw [call] at comes
  cases comes with
  | finish outside ends =>
    have keeps : ¬l.Refuses := by
      rintro ⟨-, c, head, wide⟩
      exact wide (utf8Size_of_endsExpression (ends c head))
    have still : l.skipGap.inside = false := outside
    simp [outside, keeps, still]
  | passing outside filled passed here _ =>
    have keeps : ¬l.Refuses := by
      rintro ⟨-, c, head, wide⟩
      rw [here, List.head?_append_of_ne_nil _ filled] at head
      exact wide (passed c (List.mem_of_mem_head? head)).1
    simp [outside, keeps]
  | refused outside here wide =>
    have refuses : l.Refuses := ⟨outside, _, by rw [here]; rfl, wide⟩
    simp [refuses]
  | broken inside => simp [inside]

/-- After any calls the lexer stands at a character or has broken off inside one. -/
theorem StandsIn.run (h : l.StandsIn text) (calls : Nat) :
    (l.afterCalls calls).StandsIn text ∨ (l.afterCalls calls).BrokenIn text := by
  induction calls with
  | zero => exact .inl h
  | succ calls ih =>
    rw [afterCalls_succ]
    rcases ih with stands | broken
    · exact stands.call.2
    · rw [broken.next_eq]
      exact .inr broken

theorem StandsIn.standsIn_afterCalls (h : l.StandsIn text) {calls : Nat}
    (outside : (l.afterCalls calls).inside = false) : (l.afterCalls calls).StandsIn text := by
  rcases h.run calls with stands | broken
  · exact stands
  · have inside := broken.inside
    rw [outside] at inside
    cases inside

theorem StandsIn.brokenIn_afterCalls (h : l.StandsIn text) {calls : Nat}
    (inside : (l.afterCalls calls).inside = true) : (l.afterCalls calls).BrokenIn text := by
  rcases h.run calls with stands | broken
  · have outside := stands.outside
    rw [inside] at outside
    cases outside
  · exact broken

theorem StandsIn.inside_afterCalls_iff (h : l.StandsIn text) (calls : Nat) :
    (l.afterCalls calls).inside = true ↔ ∃ earlier < calls, (l.afterCalls earlier).Refuses := by
  induction calls with
  | zero =>
    have outside : (l.afterCalls 0).inside = false := h.outside
    simp [outside]
  | succ calls ih =>
    rw [afterCalls_succ, inside_next_iff, ih]
    simp only [Nat.lt_succ_iff_lt_or_eq]
    constructor
    · rintro (⟨earlier, before, refuses⟩ | refuses)
      · exact ⟨earlier, .inl before, refuses⟩
      · exact ⟨calls, .inr rfl, refuses⟩
    · rintro ⟨earlier, before | rfl, refuses⟩
      · exact .inl ⟨earlier, before, refuses⟩
      · exact .inr refuses

end Lexer
end Standing

section Ahead

def WideAhead (rest : List Char) : Prop :=
  ∃ c ∈ rest.takeWhile (fun c => !endsExpression c), c.utf8Size ≠ 1

theorem wideAhead_append_iff {taken rest : List Char} (passed : ∀ c ∈ taken, Passed c) :
    WideAhead (taken ++ rest) ↔ WideAhead rest := by
  have continues : ∀ c ∈ taken, (!endsExpression c) = true := fun c member => by
    simp [(passed c member).2]
  rw [WideAhead, List.takeWhile_append_of_pos continues]
  constructor
  · rintro ⟨c, member, wide⟩
    rcases List.mem_append.1 member with first | later
    · exact absurd (passed c first).1 wide
    · exact ⟨c, later, wide⟩
  · rintro ⟨c, member, wide⟩
    exact ⟨c, List.mem_append_right _ member, wide⟩

namespace Lexer

variable {l : Lexer}

theorem wideAhead_skipGap_iff : WideAhead l.skipGap.rest ↔ WideAhead l.rest := by
  rw [l.rest_eq_gap_append]
  exact (wideAhead_append_iff fun c member => passed_of_mem_gap member).symm

/-- A call approaches the wide character ahead, or refuses it. -/
theorem wideAhead_next (wide : WideAhead l.rest) :
    l.next.2.inside = true ∨
      (l.next.2.inside = false ∧ WideAhead l.next.2.rest ∧
        l.next.2.rest.length < l.rest.length) := by
  have ahead := wideAhead_skipGap_iff.2 wide
  have skipped := l.length_rest_skipGap_le
  cases call : l.next with
  | mk answer after =>
  have comes := l.comes_next
  rw [call] at comes
  cases comes with
  | finish _ ends =>
    obtain ⟨c, member, -⟩ := ahead
    cases here : l.skipGap.rest with
    | nil => simp [here] at member
    | cons d rest => simp [here, ends d (by simp [here])] at member
  | @passing answer taken rest _ filled passed here _ =>
    rw [here, wideAhead_append_iff passed] at ahead
    rw [here, List.length_append] at skipped
    have positive := List.length_pos_iff.2 filled
    have shorter : rest.length < l.rest.length := by omega
    exact .inr ⟨rfl, ahead, shorter⟩
  | refused _ _ _ => exact .inl rfl
  | broken inside => exact .inl inside

theorem not_wideAhead_next (outside : l.inside = false) (clear : ¬WideAhead l.rest) :
    l.next.2.inside = false ∧ ¬WideAhead l.next.2.rest := by
  rw [← wideAhead_skipGap_iff] at clear
  cases call : l.next with
  | mk answer after =>
  have comes := l.comes_next
  rw [call] at comes
  cases comes with
  | finish _ _ => exact ⟨outside, clear⟩
  | passing _ _ passed here _ =>
    rw [here, wideAhead_append_iff passed] at clear
    exact ⟨rfl, clear⟩
  | @refused c rest _ here wide =>
    refine absurd ⟨c, ?_, wide⟩ clear
    simp [here, endsExpression_of_wide wide]
  | broken inside =>
    rw [outside] at inside
    cases inside

theorem exists_inside_afterCalls (outside : l.inside = false) (wide : WideAhead l.rest) :
    ∃ calls, (l.afterCalls calls).inside = true := by
  induction size : l.rest.length using Nat.strongRecOn generalizing l with
  | ind size ih =>
    rcases wideAhead_next wide with inside | ⟨goes, ahead, shorter⟩
    · exact ⟨1, inside⟩
    · obtain ⟨calls, inside⟩ := ih _ (size ▸ shorter) goes ahead rfl
      exact ⟨calls + 1, inside⟩

theorem outside_afterCalls (outside : l.inside = false) (clear : ¬WideAhead l.rest) (calls : Nat) :
    (l.afterCalls calls).inside = false := by
  induction calls generalizing l with
  | zero => exact outside
  | succ calls ih =>
    obtain ⟨goes, still⟩ := not_wideAhead_next outside clear
    exact ih goes still

end Lexer
end Ahead

/-- For every text and number of calls: the lexer stands at a character and answers with characters
of the text, or an earlier call refused a wider character and it stays inside that one. The latter
never happens exactly if all characters before the end of the expression take one byte. Readers make
only such calls. -/
theorem boundaries_of_calls (text : String) :
    let l := Lexer.ofText text.toList
    (∀ calls,
      ((l.afterCalls calls).inside = false →
        AtCharacter text (l.afterCalls calls).position ∧
          Answers text (l.afterCalls calls).next.1) ∧
      ((l.afterCalls calls).inside = true →
        ¬AtCharacter text (l.afterCalls calls).position ∧
          (l.afterCalls calls).next =
            (.error (.insideCharacter (l.afterCalls calls).position), l.afterCalls calls)) ∧
      ((l.afterCalls calls).inside = true ↔
        ∃ earlier < calls, (l.afterCalls earlier).Refuses)) ∧
    ((∀ calls, AtCharacter text (l.afterCalls calls).position ∧
        Answers text (l.afterCalls calls).next.1) ↔
      ∀ c ∈ text.toList.takeWhile (fun c => !endsExpression c), c.utf8Size = 1) ∧
    ∀ reader, Reader.ofText text.toList = .ok reader →
      ∀ powers, l.Reaches (reader.afterExpressions powers).place.lexer := by
  intro l
  have start : l.StandsIn text := Lexer.standsIn_ofText text
  refine ⟨fun calls => ⟨fun outside => ?_, fun inside => ?_, start.inside_afterCalls_iff calls⟩, ?_,
    fun reader begun => Reader.reaches_afterExpressions (Reader.reaches_ofText begun)⟩
  · have stands := start.standsIn_afterCalls outside
    exact ⟨stands.atCharacter, stands.call.1⟩
  · have broken := start.brokenIn_afterCalls inside
    exact ⟨broken.not_atCharacter, broken.next_eq⟩
  · constructor
    · intro sound c member
      apply Decidable.byContradiction
      intro wide
      obtain ⟨calls, inside⟩ := Lexer.exists_inside_afterCalls start.outside ⟨c, member, wide⟩
      exact (start.brokenIn_afterCalls inside).not_atCharacter (sound calls).1
    · intro narrow calls
      have clear : ¬WideAhead l.rest := fun ⟨c, member, wide⟩ => wide (narrow c member)
      have stands :=
        start.standsIn_afterCalls (Lexer.outside_afterCalls start.outside clear calls)
      exact ⟨stands.atCharacter, stands.call.1⟩

/-- The first call of a text with a wider character still gives its token. -/
theorem boundaries_of_calls_euro :
    let l := Lexer.ofText "n € 2".toList
    (AtCharacter "n € 2" 1 ∧ Answers "n € 2" (l.afterCalls 1).next.1) ∧
    ¬AtCharacter "n € 2" 3 ∧
    ∃ reader, Reader.ofText "n € 2".toList = .ok reader ∧
      l.Reaches (reader.afterExpressions [0, 40, 0]).place.lexer := by
  intro l
  obtain ⟨stands, -, within⟩ := boundaries_of_calls "n € 2"
  have first : (l.afterCalls 1).inside = false := by decide +kernel
  have second : (l.afterCalls 2).inside = true := by decide +kernel
  exact ⟨(stands 1).1 first, ((stands 2).2.1 second).1, _, rfl, within _ rfl [0, 40, 0]⟩

/-- Called again after refusing a two-byte character, a lexer stands inside it; a reader does so
when its second expression starts where the first failed. -/
theorem call_inside_character :
    let l := Lexer.ofText "n é".toList
    (l.afterCalls 1).next.1 = .error (.unexpectedChar 'é' 2) ∧
    (l.afterCalls 2).position = 3 ∧ ¬AtCharacter "n é" 3 ∧
    (l.afterCalls 2).next.1 = .error (.insideCharacter 3) ∧
    ∃ reader, Reader.ofText "n é".toList = .ok reader ∧
      (reader.expression 0).1 = .error (.unexpectedChar 'é' 2) ∧
      ((reader.expression 0).2.expression 0).1 = .error (.insideCharacter 3) := by
  intro l
  have split : "n é".toList = ['n', ' '] ++ 'é' :: [] := by decide
  have inside : ¬AtCharacter "n é" 3 := not_atCharacter split (by decide)
  exact ⟨by decide +kernel, by decide +kernel, inside, by decide +kernel, _, rfl, by decide +kernel,
    by decide +kernel⟩

end MessageCatalog.Plural
