import MessageCatalog.Proofs.Plural.Lexemes
import MessageCatalog.Proofs.Plural.Reading

/-! Parsing decided by layout and grammar, both stated without lexer and reader. -/
namespace MessageCatalog.Plural

section Tokens

variable {l : Lexer} {ts : List Token} {text : String} {e : Expr}

theorem Lexer.tokens_eq_ok_iff_gives : l.tokens = .ok ts ↔ ∃ t, l.Gives ts (.ok t) := by
  constructor
  · intro listed
    induction ts generalizing l with
    | nil =>
      obtain ⟨t, after, call, ⟨finish, -⟩ | ⟨-, rest, -, same⟩⟩ := tokens_ok listed
      · exact ⟨t, .last call fun u same => Except.ok.inj same ▸ finish⟩
      · cases same
    | cons t ts ih =>
      obtain ⟨u, after, call, ⟨-, same⟩ | ⟨goes, rest, later, same⟩⟩ := tokens_ok listed
      · cases same
      · cases same
        obtain ⟨last, others⟩ := ih later
        exact ⟨last, .token call goes others⟩
  · rintro ⟨t, given⟩
    generalize ends : Except.ok t = outcome at given
    induction given with
    | last call stops =>
      subst ends
      exact tokens_of_finish call (stops t rfl)
    | token call goes _ ih => exact tokens_of_next call goes (ih ends)

theorem tokens_eq_ok_iff_laid : tokens text = .ok ts ↔ ∃ t, Laid [] text.toList ts (.ok t) := by
  rw [tokens, Lexer.tokens_eq_ok_iff_gives]
  exact exists_congr fun t => gives_iff_laid text ts (.ok t)

/-- Tokens are read as what they derive, or levels run out. -/
theorem parse_of_derives (listed : tokens text = .ok ts)
    (derives : Derives .choice (ts.map Token.kind) e) :
    parse text = .ok e ∨
      256 < ts.length ∧ ∃ position, parse text = .error (.tooDeeplyNested position) := by
  obtain ⟨p, q, first, reads, finish, -⟩ := Place.tokens_eq_ok_iff.1 ⟨ts, listed, rfl⟩
  have stays : q.current.kind.power ≤ 0 := by simp [finish, Kind.power]
  have passes := derives.passes maxNesting 0 p q reads stays (Rank.above_zero_le _)
  rw [parse_of_next first]
  rcases passes.closed stays with reading | ⟨short, exhausted⟩
  · exact .inl (whole_of_reading reading finish (reads.arrives first finish))
  · rw [List.length_map] at short
    exact .inr ⟨short, whole_of_exhausted exhausted⟩

end Tokens

/-- Parsing accepts exactly the texts laid out in tokens that derive the tree, up to the nesting
limit, which no text of 256 tokens or fewer exceeds. -/
theorem parse_accepts_grammar (text : String) :
    (∀ e, parse text = .ok e →
      ∃ ts t, Laid [] text.toList ts (.ok t) ∧ Derives .choice (ts.map Token.kind) e) ∧
    (∀ ts t e, Laid [] text.toList ts (.ok t) → Derives .choice (ts.map Token.kind) e →
      (parse text = .ok e ∨ ∃ position, parse text = .error (.tooDeeplyNested position)) ∧
      (ts.length ≤ 256 → parse text = .ok e)) ∧
    ((∀ ts t e, Laid [] text.toList ts (.ok t) → ¬Derives .choice (ts.map Token.kind) e) →
      ∃ cause, parse text = .error cause) := by
  have derived (e : Expr) (read : parse text = .ok e) :
      ∃ ts t, Laid [] text.toList ts (.ok t) ∧ Derives .choice (ts.map Token.kind) e := by
    obtain ⟨ts, listed, derives⟩ := derives_of_parse read
    obtain ⟨t, laid⟩ := tokens_eq_ok_iff_laid.1 listed
    exact ⟨ts, t, laid, derives⟩
  refine ⟨derived, fun ts t e laid derives => ?_, fun none => ?_⟩
  · rcases parse_of_derives (tokens_eq_ok_iff_laid.2 ⟨t, laid⟩) derives with
      read | ⟨many, refused⟩
    · exact ⟨.inl read, fun _ => read⟩
    · exact ⟨.inr refused, fun few => absurd few (Nat.not_le.2 many)⟩
  · cases outcome : parse text with
    | error cause => exact ⟨cause, rfl⟩
    | ok e =>
      obtain ⟨ts, t, laid, derives⟩ := derived e outcome
      exact absurd derives (none ts t e laid)

/-- Negation, choice and parentheses, with a terminator and other text after it. -/
theorem parse_accepts_grammar_choice :
    let ts : List Token := [⟨.not, 0⟩, ⟨.count, 1⟩, ⟨.question, 3⟩, ⟨.number 2, 5⟩, ⟨.colon, 7⟩,
      ⟨.opening, 9⟩, ⟨.count, 10⟩, ⟨.op .sub, 12⟩, ⟨.number 1, 14⟩, ⟨.closing, 15⟩]
    let e : Expr := .choice (.not .count) (.number 2) (.binary .sub .count (.number 1))
    Laid [] "!n ? 2 : (n - 1);$".toList ts (.ok ⟨.finish, 16⟩) ∧
      Derives .choice (ts.map Token.kind) e ∧ parse "!n ? 2 : (n - 1);$" = .ok e := by
  intro ts e
  have given : (Lexer.ofText "!n ? 2 : (n - 1);$".toList).Gives ts (.ok ⟨.finish, 16⟩) :=
    .token rfl nofun (.token rfl nofun (.token rfl nofun (.token rfl nofun (.token rfl nofun
      (.token rfl nofun (.token rfl nofun (.token rfl nofun (.token rfl nofun (.token rfl nofun
        (.last rfl (by simp)))))))))))
  have laid := (gives_iff_laid _ _ _).1 given
  have operand {rank : Rank} (v : Int64) : Derives rank [.number v] (.number v) :=
    (Derives.number v).loosen (by cases rank <;> decide)
  have count {rank : Rank} : Derives rank [.count] .count :=
    Derives.count.loosen (by cases rank <;> decide)
  have negation : Derives .or [.not, .count] (.not .count) :=
    (Derives.not count).loosen (by decide)
  have difference : Derives .choice [.count, .op .sub, .number 1]
      (.binary .sub .count (.number 1)) :=
    (Derives.binary (o := .sub) rfl count (operand 1)).loosen (by decide)
  have derives : Derives .choice (ts.map Token.kind) e :=
    .choice negation (operand 2) (difference.group.loosen (by decide))
  exact ⟨laid, derives, ((parse_accepts_grammar _).2.1 ts _ e laid derives).2 (by decide)⟩

end MessageCatalog.Plural
