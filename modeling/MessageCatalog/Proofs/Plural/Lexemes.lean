import MessageCatalog.Proofs.Plural.Layout

/-! The calls of a lexer give exactly the layout of the text: nothing is lost, repeated or cut
short. -/
namespace MessageCatalog.Plural

namespace Lexer

/-- Tokens given before the first end or fault. -/
inductive Gives : Lexer → List Token → Except SyntaxError Token → Prop where
  | last {l after : Lexer} {outcome : Except SyntaxError Token} (call : l.next = (outcome, after))
      (stops : ∀ t, outcome = .ok t → t.kind = .finish) : Gives l [] outcome
  | token {l after : Lexer} {t : Token} {ts : List Token} {outcome : Except SyntaxError Token}
      (call : l.next = (.ok t, after)) (goes : t.kind ≠ .finish) (others : after.Gives ts outcome) :
      Gives l (t :: ts) outcome

variable {l after : Lexer} {t : Token} {ts us : List Token}
  {outcome other : Except SyntaxError Token}

theorem Gives.unique (h : l.Gives ts outcome) (g : l.Gives us other) :
    us = ts ∧ other = outcome := by
  induction h generalizing us with
  | last call stops =>
    cases g with
    | last again _ =>
      rw [call] at again
      cases again
      exact ⟨rfl, rfl⟩
    | token again goes _ =>
      rw [call] at again
      cases again
      exact absurd (stops _ rfl) goes
  | token call goes _ ih =>
    cases g with
    | last again stops =>
      rw [call] at again
      cases again
      exact absurd (stops _ rfl) goes
    | token again _ later =>
      rw [call] at again
      cases again
      obtain ⟨rfl, rfl⟩ := ih later
      exact ⟨rfl, rfl⟩

theorem next_afterCalls_of_finish (h : l.next = (.ok t, after)) (finish : t.kind = .finish)
    (calls : Nat) : (l.afterCalls calls).next = (.ok t, after) := by
  induction calls with
  | zero => exact h
  | succ calls ih =>
    rw [afterCalls_succ, ih]
    exact next_of_finish h finish

/-- The end token is repeated by every later call. -/
theorem Gives.afterCalls (h : l.Gives ts outcome) (ends : outcome = .ok t) {calls : Nat}
    (late : ts.length ≤ calls) : (l.afterCalls calls).next.1 = .ok t := by
  induction h generalizing calls with
  | last call stops =>
    subst ends
    rw [next_afterCalls_of_finish call (stops t rfl)]
  | @token l after u ts _ call _ _ ih =>
    obtain ⟨more, rfl⟩ := Nat.exists_eq_add_of_le late
    have first : l.afterCalls (ts.length + more + 1) = after.afterCalls (ts.length + more) :=
      congrArg (fun step => step.2.afterCalls (ts.length + more)) call
    rw [List.length_cons, Nat.add_right_comm, first]
    exact ih ends (Nat.le_add_right _ _)

end Lexer

section Calls

variable {before gap taken rest : List Char} {kind : Kind} {ts : List Token}
  {outcome : Except SyntaxError Token}

theorem next_of_gap (gaps : ∀ c ∈ gap, isGap c = true) (solid : ∀ c ∈ rest.head?, isGap c = false)
    (position : Nat) : (⟨gap ++ rest, position, false⟩ : Lexer).next =
      (⟨rest, position + gap.length, false⟩ : Lexer).token := by
  have here : (⟨gap ++ rest, position, false⟩ : Lexer).skipGap =
      ⟨rest, position + gap.length, false⟩ := by
    rw [Lexer.skipGap, Text.dropWhile_append_of_stops gaps solid,
      Text.takeWhile_append_of_stops gaps solid]
  exact congrArg Lexer.token here

theorem DigitRun.token (run : DigitRun before taken rest) (position : Nat) :
    (⟨taken ++ rest, position, false⟩ : Lexer).token =
      (⟨taken ++ rest, position, false⟩ : Lexer).number := by
  obtain ⟨c, more, rfl⟩ := List.exists_cons_of_ne_nil run.filled
  have digit : c.isDigit = true := run.digits c List.mem_cons_self
  simp [Lexer.token, (carried_of_isDigit digit).endsExpression, digit]

/-- The lexer takes tokens as they are spelled. -/
theorem Spelled.token (h : Spelled before kind taken rest) (position : Nat) :
    (⟨taken ++ rest, position, false⟩ : Lexer).token =
      (.ok ⟨kind, position⟩, ⟨rest, position + taken.length, false⟩) := by
  cases h with
  | @number v _ _ run value =>
    have fits : Nat.ofDigitChars 10 taken 0 < numberLimit := by
      have := v.toInt_lt
      rw [numberLimit]
      omega
    have same : Int64.ofNat (Nat.ofDigitChars 10 taken 0) = v := by
      refine Int64.toInt_inj.1 ?_
      rw [Int64.toInt_ofNat_of_lt fits, value]
    rw [run.token, Lexer.number]
    simp [Text.takeWhile_append_of_stops run.digits run.ends,
      Text.dropWhile_append_of_stops run.digits run.ends, fits, same]
  | sign starts =>
    obtain ⟨c, more, symbol⟩ := kind.exists_symbol_cons starts.sign
    have first : c ∈ kind.symbol.toList := symbol ▸ List.mem_cons_self
    have goes := (kind.passed_of_isSign starts.sign c first).2
    have letter := (kind.plain_of_isSign starts.sign c first).1
    have sign := signAt_of_startsWithSign starts
    rw [symbol, List.cons_append] at sign ⊢
    simp [Lexer.token, goes, letter, sign]

theorem Stops.solid (h : Stops before rest outcome) : ∀ c ∈ rest.head?, isGap c = false := by
  have ending : ∀ c : Char, endsExpression c = true → isGap c = false := by
    intro c ends
    simp only [endsExpression, Bool.or_eq_true, beq_iff_eq] at ends
    rcases ends with rfl | rfl <;> decide
  cases h with
  | finish ends => exact fun c head => ending c (ends c head)
  | tooLarge run =>
    intro c head
    rw [List.head?_append_of_ne_nil _ run.filled] at head
    exact isGap_of_isDigit (run.digits c (List.mem_of_mem_head? head))
  | lone half => simpa using (plain_of_half half).1
  | nothing solid => simpa using solid

theorem signAt_of_lone {c : Char} (half : c ∈ ['=', '&', '|']) (alone : rest.head? ≠ some c) :
    signAt (c :: rest) = none := by
  refine Option.eq_none_iff_forall_ne_some.2 fun ⟨kind, size⟩ sign => ?_
  have starts := startsWithSign_of_signAt sign
  obtain ⟨more, same⟩ := starts.here
  obtain ⟨-, -, none, -⟩ := plain_of_half half
  rcases kind.symbol_of_isSign starts.sign with ⟨d, symbol, single⟩ | ⟨d, e, symbol, pair⟩
  · rw [symbol] at same
    cases same
    rw [none] at single
    cases single
  · rw [symbol] at same
    cases same
    rcases first_of_pairKind pair with ⟨single, known⟩ | ⟨-, rfl⟩
    · rw [none] at known
      cases known
    · exact alone rfl

theorem signAt_of_unknown {c : Char}
    (unknown : ∀ kind : Kind, kind.isSign = true → kind.symbol.toList.head? ≠ some c) :
    signAt (c :: rest) = none := by
  refine Option.eq_none_iff_forall_ne_some.2 fun ⟨kind, size⟩ sign => ?_
  have starts := startsWithSign_of_signAt sign
  obtain ⟨more, same⟩ := starts.here
  refine unknown kind starts.sign ?_
  obtain ⟨d, tail, symbol⟩ := kind.exists_symbol_cons starts.sign
  rw [symbol] at same ⊢
  cases same
  rfl

theorem Stops.token (h : Stops before rest outcome) :
    (⟨rest, byteCount before, false⟩ : Lexer).token.1 = outcome := by
  cases h with
  | finish ends => rw [Lexer.token_of_ends ends]
  | @tooLarge digits rest run value =>
    have large : ¬Nat.ofDigitChars 10 digits 0 < numberLimit := tooLarge_iff.1 value
    rw [run.token, Lexer.number]
    simp [Text.takeWhile_append_of_stops run.digits run.ends, large]
  | @lone c rest half alone =>
    obtain ⟨-, letter, -, -, goes⟩ := plain_of_half half
    simp [Lexer.token, goes, letter, signAt_of_lone half alone, needsPartner_iff.2 half]
  | @nothing c rest _ goes letter unknown =>
    have needs : needsPartner c = false := by
      refine Bool.eq_false_iff.2 fun half => ?_
      obtain ⟨kind, pair⟩ := pairKind_of_half (needsPartner_iff.1 half)
      exact unknown kind (pairKind_isSign pair) (by rw [symbol_of_pairKind pair]; rfl)
    simp [Lexer.token, goes, letter, signAt_of_unknown unknown, needs]

theorem byteCount_append_passed (passed : ∀ c ∈ taken, Passed c) :
    byteCount (before ++ taken) = byteCount before + taken.length := by
  rw [byteCount_append, byteCount_eq_length fun c member => (passed c member).1]

/-- A lexer gives the layout of its remaining text. -/
theorem Laid.gives (h : Laid before rest ts outcome) :
    (⟨rest, byteCount before, false⟩ : Lexer).Gives ts outcome := by
  induction h with
  | @token before gap taken rest kind ts outcome gaps spelled _ ih =>
    have call := (next_of_gap gaps spelled.solid (byteCount before)).trans (spelled.token _)
    rw [← byteCount_append_passed fun c member => passed_of_isGap (gaps c member),
      ← byteCount_append_passed spelled.passed] at call
    exact .token call spelled.ne_finish ih
  | @stop before gap rest outcome gaps stops =>
    have call := next_of_gap gaps stops.solid (byteCount before)
    rw [← byteCount_append_passed fun c member => passed_of_isGap (gaps c member)] at call
    refine .last (call.trans (Prod.ext stops.token rfl)) fun t same => ?_
    cases stops <;> cases same
    rfl

end Calls

theorem gives_iff_laid (text : String) (ts : List Token) (outcome : Except SyntaxError Token) :
    (Lexer.ofText text.toList).Gives ts outcome ↔ Laid [] text.toList ts outcome := by
  constructor
  · intro given
    obtain ⟨us, other, laid⟩ := exists_layout text.toList
    obtain ⟨rfl, rfl⟩ := given.unique laid.gives
    exact laid
  · exact Laid.gives

/-- Every text has exactly one layout, and it is what calls give. Tokens do not overlap, the end
token stands where the expression ends, and later calls repeat it. -/
theorem calls_give_layout (text : String) :
    let l := Lexer.ofText text.toList
    ∃ ts outcome, (∀ us other, l.Gives us other ↔ us = ts ∧ other = outcome) ∧
      (∀ us other, Laid [] text.toList us other ↔ us = ts ∧ other = outcome) ∧
      ((withEnd ts outcome).Pairwise fun t u => t.position < u.position) ∧
      ∀ t, outcome = .ok t →
        t = ⟨.finish, byteCount (text.toList.takeWhile fun c => !endsExpression c)⟩ ∧
        ∀ calls, ts.length ≤ calls → (l.afterCalls calls).next.1 = .ok t := by
  intro l
  obtain ⟨ts, outcome, laid⟩ := exists_layout text.toList
  have given : l.Gives ts outcome := laid.gives
  have only (us : List Token) (other : Except SyntaxError Token) :
      l.Gives us other ↔ us = ts ∧ other = outcome := by
    constructor
    · exact given.unique
    · rintro ⟨rfl, rfl⟩
      exact given
  have one (us : List Token) (other : Except SyntaxError Token) :
      Laid [] text.toList us other ↔ us = ts ∧ other = outcome :=
    (gives_iff_laid text us other).symm.trans (only us other)
  exact ⟨ts, outcome, only, one, laid.pairwise,
    fun t ends => ⟨laid.end_eq ends, fun calls => given.afterCalls ends⟩⟩

theorem calls_give_layout_leadingZeros :
    Laid [] "n <= 007;!".toList [⟨.count, 0⟩, ⟨.op .le, 2⟩, ⟨.number 7, 5⟩] (.ok ⟨.finish, 8⟩) ∧
    ((Lexer.ofText "n <= 007;!".toList).afterCalls 5).next.1 = .ok ⟨.finish, 8⟩ := by
  obtain ⟨ts, outcome, given, laid, -, ends⟩ := calls_give_layout "n <= 007;!"
  have run : (Lexer.ofText "n <= 007;!".toList).Gives
      [⟨.count, 0⟩, ⟨.op .le, 2⟩, ⟨.number 7, 5⟩] (.ok ⟨.finish, 8⟩) :=
    .token rfl nofun (.token rfl nofun (.token rfl nofun (.last rfl (by simp))))
  obtain ⟨rfl, rfl⟩ := (given _ _).1 run
  exact ⟨(laid _ _).2 ⟨rfl, rfl⟩, (ends _ rfl).2 5 (by decide)⟩

end MessageCatalog.Plural
