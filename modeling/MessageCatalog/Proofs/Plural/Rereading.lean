import MessageCatalog.Proofs.Plural.Height

/-! Parsing the rendering of a parsed tree. Rendering parenthesizes throughout and may need more
levels than the source: three per nested choice instead of two. Short texts always leave enough. -/
namespace MessageCatalog.Plural

variable {rank : Rank} {ks : List Kind} {e : Expr}

/-- Fewer than two levels for each token of the source. -/
theorem Derives.need_lt (derives : Derives rank ks e) : e.need < 2 * ks.length := by
  induction derives with
  | number v => exact Nat.one_lt_two
  | count => exact Nat.one_lt_two
  | group _ ih =>
    simp only [List.length_append, List.length_cons, List.length_nil]
    omega
  | not _ ih =>
    rw [Expr.need, List.length_cons]
    omega
  | binary _ _ _ left right =>
    rw [Expr.need, List.length_append, List.length_cons]
    omega
  | choice _ _ _ condition whenTrue whenFalse =>
    simp only [Expr.need, List.length_append, List.length_cons]
    omega
  | tighter _ _ ih => exact ih

def choices : Nat → Expr
  | 0 => .count
  | times + 1 => .choice .count .count (choices times)

def choicesText : Nat → List Char
  | 0 => ['n']
  | times + 1 => 'n' :: '?' :: 'n' :: ':' :: choicesText times

def choicesKinds : Nat → List Kind
  | 0 => [.count]
  | times + 1 => .count :: .question :: .count :: .colon :: choicesKinds times

section Choices

variable {p q : Place} {times : Nat}

theorem spells_choicesText (times : Nat) : Spells (choicesText times) (choicesKinds times) [] := by
  induction times with
  | zero => exact spells_count []
  | succ times ih =>
    have colon : Spells (':' :: choicesText times) [.colon] (choicesText times) := by
      cases times <;> exact spells_single rfl rfl
    exact (spells_count _).cons ((spells_single rfl rfl).cons ((spells_count _).cons
      (colon.cons ih)))

theorem nests_choices (reads : p.Reads (choicesKinds times) q)
    (stays : q.current.kind.power ≤ 0) :
    Nests (2 * times + 1) (1 + min times 1) 0 p (choices times) q := by
  induction times generalizing p with
  | zero => exact nests_count reads
  | succ times ih =>
    obtain ⟨count, m, first, reads⟩ := Place.reads_cons_iff.1 reads
    obtain ⟨question, r, step, reads⟩ := Place.reads_cons_iff.1 reads
    obtain ⟨branch, u, second, reads⟩ := Place.reads_cons_iff.1 reads
    obtain ⟨colon, v, next, reads⟩ := Place.reads_cons_iff.1 reads
    have condition : Nests 1 1 0 p .count m := nests_count (count ▸ first.reads)
    have whenTrue : Nests 1 1 0 r .count u := nests_count (branch ▸ second.reads)
    have whole := nests_choice condition question (by decide) step whenTrue colon next
      (ih reads) stays
    have cost : max 1 (1 + 1 + max 1 (2 * times + 1)) = 2 * (times + 1) + 1 := by omega
    rw [cost] at whole
    rwa [Nat.min_eq_right (Nat.le_add_left 1 times)]

theorem parse_choicesText (few : 2 * times + 1 ≤ 256) :
    parse (String.ofList (choicesText times)) = .ok (choices times) :=
  ((spells_choicesText times).parse fun _ _ => nests_choices).1 few

theorem need_choices (times : Nat) : (choices times).need = 3 * times + 1 := by
  induction times with
  | zero => rfl
  | succ times ih =>
    rw [choices, Expr.need, Expr.need, ih]
    omega

end Choices

/-- A parsed tree is parsed back from its rendering exactly if its need is within the limit and is
refused for nesting beyond; 128 tokens never exceed it. -/
theorem parse_render_of_parse (text : String) (e : Expr) (h : parse text = .ok e) :
    (parse e.render = .ok e ↔ e.need ≤ 256) ∧
    (256 < e.need → ∃ position, parse e.render = .error (.tooDeeplyNested position)) ∧
    ∃ ts, tokens text = .ok ts ∧ (ts.length ≤ 128 → parse e.render = .ok e) := by
  obtain ⟨enough, short⟩ := parse_render_of_nonneg (nonneg_of_parse h)
  refine ⟨⟨need_le_of_parse_render, enough⟩, short, ?_⟩
  obtain ⟨ts, ok, derives⟩ := derives_of_parse h
  refine ⟨ts, ok, fun few => enough ?_⟩
  have need := derives.need_lt
  rw [List.length_map] at need
  omega

theorem parse_render_of_parse_negations :
    parse "!!n" = .ok (.not (.not .count)) ∧ Expr.render (.not (.not .count)) = "!(!(n))" ∧
      parse "!(!(n))" = .ok (.not (.not .count)) := by
  have read : parse "!!n" = .ok (.not (.not .count)) := by decide +kernel
  have again := (parse_render_of_parse "!!n" _ read).1.2 (by decide)
  exact ⟨read, rfl, again⟩

/-- 86 nested choices are accepted, but not their rendering. -/
theorem choices_not_read_again :
    ∃ e, parse (String.ofList (choicesText 86)) = .ok e ∧ parse e.render ≠ .ok e := by
  refine ⟨choices 86, parse_choicesText (by decide), fun again => ?_⟩
  have need := need_le_of_parse_render again
  rw [need_choices] at need
  omega

end MessageCatalog.Plural
