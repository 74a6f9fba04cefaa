import MessageCatalog.Proofs.Plural.Correspondence
import MessageCatalog.Proofs.Plural.Lexemes

/-! Texts with equal tokens are read alike, up to faults of their lexers. -/
namespace MessageCatalog.Plural

inductive Blames (ts : List Token) : SyntaxError → Prop where
  | token {t : Token} (member : t ∈ ts) (wanted : Wanted) :
      Blames ts (.unexpectedToken wanted t.kind t.position)
  | depth {t : Token} (member : t ∈ ts) : Blames ts (.tooDeeplyNested t.position)

def EndAlike (x y : Except SyntaxError Token) : Prop :=
  x = y ∨ ∃ s t, x = .error s ∧ y = .error t

/-- Places with equal remaining tokens. -/
structure Along (ts : List Token) (x y : Except SyntaxError Token) (p q : Place) : Prop where
  current : p.current = q.current
  shown : p.current ∈ withEnd ts x
  ahead : ∃ later, later ⊆ ts ∧ p.lexer.Gives later x ∧ q.lexer.Gives later y

def StopsAlong (ts : List Token) (x y : Except SyntaxError Token) (s t : Stop) : Prop :=
  (x = .error s.cause ∧ y = .error t.cause) ∨ (s.cause = t.cause ∧ Blames (withEnd ts x) s.cause)

section Along

variable {ts later : List Token} {x y : Except SyntaxError Token} {l m : Lexer} {a b : String}

theorem mem_withEnd {t : Token} (member : t ∈ ts) : t ∈ withEnd ts x := by
  cases x with
  | ok u => exact List.mem_append_left _ member
  | error _ => exact member

/-- The next calls to both lexers give equal tokens, or their faults. -/
theorem next_along (alike : EndAlike x y) (within : later ⊆ ts) (first : l.Gives later x)
    (second : m.Gives later y) :
    (∃ t n o, l.next = (.ok t, n) ∧ m.next = (.ok t, o) ∧ Along ts x y ⟨n, t⟩ ⟨o, t⟩) ∨
    ∃ s t n o, l.next = (.error s, n) ∧ m.next = (.error t, o) ∧ x = .error s ∧ y = .error t := by
  cases first with
  | @token _ n t later _ call goes others =>
    cases second with
    | @token _ o _ _ _ again _ more =>
      obtain ⟨member, within⟩ := List.cons_subset.1 within
      exact .inl ⟨t, n, o, call, again, rfl, mem_withEnd member, later, within, others, more⟩
  | @last _ n _ call stops =>
    cases second with
    | @last _ o _ again _ =>
      rcases alike with rfl | ⟨s, t, rfl, rfl⟩
      · -- an end token is given again by the next call, so the places after it go together too
        cases x with
        | ok t =>
          have finish := stops t rfl
          refine .inl ⟨t, n, o, call, again, rfl, by simp [withEnd], [], List.nil_subset _, ?_, ?_⟩
          · exact .last (Lexer.next_of_finish call finish) stops
          · exact .last (Lexer.next_of_finish again finish) stops
        | error s => exact .inr ⟨s, s, n, o, call, again, rfl, rfl⟩
      · exact .inr ⟨s, t, n, o, call, again, rfl, rfl⟩

theorem correspondence_along (alike : EndAlike x y) :
    Correspondence (Along ts x y) (StopsAlong ts x y) where
  current := Along.current
  advance := by
    intro p q along levels
    obtain ⟨later, within, first, second⟩ := along.ahead
    rw [Place.advance, Place.advance]
    rcases next_along alike within first second with
      ⟨t, n, o, call, again, along'⟩ | ⟨s, t, n, o, call, again, fault, other⟩
    · rw [call, again, ← along.current]
      exact .read along'
    · rw [call, again]
      exact .stopped (.inl ⟨fault, other⟩)
  refuse := fun along _ _ _ _ wanted => .inr ⟨rfl, .token along.shown wanted⟩
  tooDeep := fun along => .inr ⟨rfl, .depth along.shown⟩

/-- Texts with equal tokens are read alike, or refused for the faults of their lexers, or refused
for the same reason at a token. -/
theorem parse_alike (alike : EndAlike x y) (first : (Lexer.ofText a.toList).Gives ts x)
    (second : (Lexer.ofText b.toList).Gives ts y) :
    (∃ e, parse a = .ok e ∧ parse b = .ok e) ∨
    ∃ s t, parse a = .error s ∧ parse b = .error t ∧
      ((x = .error s ∧ y = .error t) ∨ (s = t ∧ Blames (withEnd ts x) s)) := by
  unfold parse Reader.ofText
  rcases next_along alike (List.Subset.refl ts) first second with
    ⟨t, n, o, call, again, along⟩ | ⟨s, t, n, o, call, again, fault, other⟩
  · rw [call, again]
    rcases (correspondence_along alike).whole_alike along maxNesting with
      same | ⟨s, t, along, read, again⟩
    · exact .inl same
    · exact .inr ⟨s.cause, t.cause, read, again, along⟩
  · rw [call, again]
    exact .inr ⟨s, t, rfl, rfl, .inl ⟨fault, other⟩⟩

end Along
end MessageCatalog.Plural
