import Mathlib.Data.List.DropRight
import MessageCatalog.Plural.Reader

/-! The tokens of a text as lists. A reader passes exactly the tokens between two places. -/
namespace MessageCatalog.Plural

def Kind.isSign : Kind → Bool
  | number _ | finish => false
  | _ => true

theorem pairKind_isSign {c d : Char} {kind : Kind} (h : pairKind c d = some kind) :
    kind.isSign = true := by
  unfold pairKind at h
  split at h <;> cases h <;> rfl

theorem singleKind_isSign {c : Char} {kind : Kind} (h : singleKind c = some kind) :
    kind.isSign = true := by
  unfold singleKind at h
  split at h <;> cases h <;> rfl

theorem signAt_some {cs : List Char} {kind : Kind} {size : Nat}
    (h : signAt cs = some (kind, size)) : kind.isSign = true ∧ 0 < size ∧ size ≤ cs.length := by
  cases cs with
  | nil => simp [signAt] at h
  | cons c rest =>
    cases rest with
    | nil =>
      obtain ⟨_, single, same⟩ : ∃ k, singleKind c = some k ∧ (k, 1) = (kind, size) := by
        simpa [signAt] using h
      cases same
      exact ⟨singleKind_isSign single, by omega, by simp⟩
    | cons d rest =>
      cases pair : pairKind c d with
      | some k =>
        obtain ⟨rfl, rfl⟩ : k = kind ∧ 2 = size := by simpa [signAt, pair] using h
        exact ⟨pairKind_isSign pair, by omega, by simp⟩
      | none =>
        obtain ⟨_, single, same⟩ : ∃ k, singleKind c = some k ∧ (k, 1) = (kind, size) := by
          simpa [signAt, pair] using h
        cases same
        exact ⟨singleKind_isSign single, by omega, by simp⟩

namespace Lexer

theorem token_ok {l after : Lexer} {t : Token} (h : l.token = (.ok t, after)) :
    (t.kind = .finish ∧ after = l ∧ ∀ c ∈ l.rest.head?, endsExpression c = true) ∨
    (t.kind ≠ .finish ∧ after.inside = l.inside ∧ ∃ taken, taken ≠ [] ∧
      l.rest = taken ++ after.rest ∧ after.position = l.position + taken.length) := by
  obtain ⟨rest, position, inside⟩ := l
  cases rest with
  | nil =>
    obtain ⟨rfl, rfl⟩ : (⟨.finish, position⟩ : Token) = t ∧ _ = after := by simpa [token] using h
    exact .inl ⟨rfl, rfl, by simp⟩
  | cons c rest =>
    simp only [token] at h
    split at h
    next ends =>
      cases h
      exact .inl ⟨rfl, rfl, by simpa using ends⟩
    next =>
      split at h
      next digit =>
        simp only [number] at h
        split at h
        next =>
          cases h
          exact .inr ⟨by simp, rfl, (c :: rest).takeWhile Char.isDigit, by simp [digit],
            List.takeWhile_append_dropWhile.symm, rfl⟩
        next => cases h
      next =>
        split at h
        next kind size sign =>
          cases h
          obtain ⟨isSign, pos, le⟩ := signAt_some sign
          have ne : kind ≠ .finish := by
            rintro rfl
            cases isSign
          refine .inr ⟨ne, rfl, (c :: rest).take size, ?_, (List.take_append_drop ..).symm, ?_⟩
          · exact List.ne_nil_of_length_pos (by rw [List.length_take]; omega)
          · rw [List.length_take, Nat.min_eq_left le]
        next => split at h <;> cases h

theorem nonneg_of_token {l after : Lexer} {t : Token} {v : Int64} (h : l.token = (.ok t, after))
    (number : t.kind = .number v) : 0 ≤ v := by
  obtain ⟨rest, position, inside⟩ := l
  cases rest with
  | nil => cases h; cases number
  | cons c rest =>
    simp only [token] at h
    split at h
    next => cases h; cases number
    next =>
      split at h
      next =>
        simp only [Lexer.number] at h
        split at h
        next fits =>
          cases h
          cases number
          rw [Int64.le_iff_toInt_le, Int64.toInt_ofNat_of_lt fits]
          exact Int.natCast_nonneg _
        next => cases h
      next =>
        split at h
        next kind size sign =>
          cases h
          have isSign := (signAt_some sign).1
          rw [show kind = .number v from number] at isSign
          cases isSign
        next => split at h <;> cases h

theorem skipGap_skipGap (l : Lexer) : l.skipGap.skipGap = l.skipGap := by
  have fixed : l.skipGap.rest.dropWhile isGap = l.skipGap.rest := List.dropWhile_idempotent ..
  have split := List.takeWhile_append_dropWhile (p := isGap) (l := l.skipGap.rest)
  rw [fixed, List.append_left_eq_self] at split
  rw [skipGap, fixed, split]
  rfl

theorem next_ok {l after : Lexer} {t : Token} (h : l.next = (.ok t, after)) :
    l.inside = false ∧ l.skipGap.token = (.ok t, after) := by
  unfold next at h
  split at h
  next => cases h
  next outside => exact ⟨by simpa using outside, h⟩

theorem length_rest_skipGap_le (l : Lexer) : l.skipGap.rest.length ≤ l.rest.length :=
  (List.dropWhile_suffix _).length_le

theorem length_rest_of_next {l after : Lexer} {t : Token} (h : l.next = (.ok t, after))
    (goes : t.kind ≠ .finish) : after.rest.length < l.rest.length := by
  have skipped := l.length_rest_skipGap_le
  rcases token_ok (next_ok h).2 with ⟨finish, _⟩ | ⟨_, _, taken, nonempty, cut, _⟩
  · exact absurd finish goes
  · have := List.length_pos_iff.2 nonempty
    have := congrArg List.length cut
    rw [List.length_append] at this
    omega

/-- The lexer repeats the end token. -/
theorem next_of_finish {l after : Lexer} {t : Token} (h : l.next = (.ok t, after))
    (finish : t.kind = .finish) : after.next = (.ok t, after) := by
  obtain ⟨outside, h⟩ := next_ok h
  rcases token_ok h with ⟨_, rfl, ends⟩ | ⟨goes, _⟩
  · have still : l.skipGap.inside = false := outside
    rw [next, still, skipGap_skipGap, h]
    rfl
  · exact absurd finish goes

/-- Tokens before the first end token or fault. -/
def tokens (l : Lexer) : Except SyntaxError (List Token) :=
  match step : l.next with
  | (.error cause, _) => .error cause
  | (.ok t, after) =>
    if goes : t.kind = .finish then .ok []
    else
      have := length_rest_of_next step goes
      match after.tokens with
      | .error cause => .error cause
      | .ok ts => .ok (t :: ts)
termination_by l.rest.length

theorem tokens_of_finish {l after : Lexer} {t : Token} (h : l.next = (.ok t, after))
    (finish : t.kind = .finish) : l.tokens = .ok [] := by
  rw [tokens]
  split
  next step => rw [h] at step; cases step
  next step =>
    rw [h] at step
    cases step
    rw [dif_pos finish]

theorem tokens_of_next {l after : Lexer} {t : Token} {ts : List Token}
    (h : l.next = (.ok t, after)) (goes : t.kind ≠ .finish) (rest : after.tokens = .ok ts) :
    l.tokens = .ok (t :: ts) := by
  rw [tokens]
  split
  next step => rw [h] at step; cases step
  next step =>
    rw [h] at step
    cases step
    rw [dif_neg goes, rest]

theorem tokens_ok {l : Lexer} {ts : List Token} (h : l.tokens = .ok ts) :
    ∃ t after, l.next = (.ok t, after) ∧
      ((t.kind = .finish ∧ ts = []) ∨
        (t.kind ≠ .finish ∧ ∃ rest, after.tokens = .ok rest ∧ ts = t :: rest)) := by
  rw [tokens] at h
  split at h
  next => cases h
  next t after step =>
    refine ⟨t, after, step, ?_⟩
    split at h
    next finish => cases h; exact .inl ⟨finish, rfl⟩
    next goes =>
      split at h
      next => cases h
      next rest same => cases h; exact .inr ⟨goes, rest, same, rfl⟩

end Lexer

def tokens (text : String) : Except SyntaxError (List Token) := (Lexer.ofText text.toList).tokens

namespace Place

def Steps (p q : Place) : Prop := p.lexer.next = (.ok q.current, q.lexer)

inductive Reads : Place → List Kind → Place → Prop where
  | nil {p : Place} : Reads p [] p
  | cons {p q r : Place} {kinds : List Kind} (step : p.Steps q) (rest : Reads q kinds r) :
      Reads p (p.current.kind :: kinds) r

variable {p q r : Place} {ks ms : List Kind}

theorem Reads.append (first : p.Reads ks q) (second : q.Reads ms r) : p.Reads (ks ++ ms) r := by
  induction first with
  | nil => exact second
  | cons step _ ih => exact .cons step (ih second)

theorem reads_cons_iff {kind : Kind} :
    p.Reads (kind :: ms) r ↔ p.current.kind = kind ∧ ∃ q, p.Steps q ∧ q.Reads ms r := by
  constructor
  · intro h
    cases h with
    | cons step rest => exact ⟨rfl, _, step, rest⟩
  · rintro ⟨rfl, q, step, rest⟩
    exact .cons step rest

theorem reads_append_iff : p.Reads (ks ++ ms) r ↔ ∃ q, p.Reads ks q ∧ q.Reads ms r := by
  constructor
  · intro h
    induction ks generalizing p with
    | nil => exact ⟨p, .nil, h⟩
    | cons kind ks ih =>
      obtain ⟨same, q, step, rest⟩ := reads_cons_iff.1 h
      obtain ⟨m, first, second⟩ := ih rest
      exact ⟨m, reads_cons_iff.2 ⟨same, q, step, first⟩, second⟩
  · rintro ⟨q, first, second⟩
    exact first.append second

theorem Steps.reads (step : p.Steps q) : p.Reads [p.current.kind] q := .cons step .nil

theorem Reads.arrives {l : Lexer} (reads : p.Reads ks q)
    (first : l.next = (.ok p.current, p.lexer)) (finish : q.current.kind = .finish) :
    q.Steps q := by
  induction reads generalizing l with
  | nil => exact Lexer.next_of_finish first finish
  | cons step _ ih => exact ih step finish

theorem tokens_eq_ok_iff {l : Lexer} {ks : List Kind} :
    (∃ ts, l.tokens = .ok ts ∧ ts.map Token.kind = ks) ↔
      ∃ p q : Place, l.next = (.ok p.current, p.lexer) ∧ p.Reads ks q ∧
        q.current.kind = .finish ∧ .finish ∉ ks := by
  constructor
  · rintro ⟨ts, h, rfl⟩
    induction ts generalizing l with
    | nil =>
      obtain ⟨t, after, step, ⟨finish, -⟩ | ⟨-, rest, -, same⟩⟩ := Lexer.tokens_ok h
      · exact ⟨⟨after, t⟩, ⟨after, t⟩, step, .nil, finish, by simp⟩
      · cases same
    | cons t ts ih =>
      obtain ⟨u, after, step, ⟨-, same⟩ | ⟨goes, rest, later, same⟩⟩ := Lexer.tokens_ok h
      · cases same
      · cases same
        obtain ⟨p, q, next, reads, finish, others⟩ := ih later
        refine ⟨⟨after, t⟩, q, step, .cons next reads, finish, ?_⟩
        rw [List.map_cons, List.mem_cons, not_or]
        exact ⟨Ne.symm goes, others⟩
  · rintro ⟨p, q, step, reads, finish, others⟩
    induction reads generalizing l with
    | nil => exact ⟨[], Lexer.tokens_of_finish step finish, rfl⟩
    | @cons p m q kinds next rest ih =>
      obtain ⟨goes, later⟩ : ¬ Kind.finish = p.current.kind ∧ Kind.finish ∉ kinds := by
        simpa using others
      obtain ⟨ts, tail, rfl⟩ := ih next finish later
      exact ⟨p.current :: ts, Lexer.tokens_of_next step (Ne.symm goes) tail, rfl⟩

end Place
end MessageCatalog.Plural
