import MessageCatalog.Proofs.Plural.Lexemes
import MessageCatalog.Proofs.Plural.Reading
import MessageCatalog.Proofs.Plural.Written

/-! Rendered expressions are parsed back exactly if their literals are nonnegative and their need,
in levels, is within the limit. -/
namespace MessageCatalog.Plural

section Spelling

variable {text middle rest : List Char} {ks ms : List Kind} {kind : Kind} {c : Char}

/-- From any position the text yields these tokens, then the rest. -/
def Spells (text : List Char) (ks : List Kind) (rest : List Char) : Prop :=
  ∀ position, ∃ after, ∀ q : Place,
    (⟨rest, after, false⟩ : Lexer).next = (.ok q.current, q.lexer) →
    ∃ p : Place, (⟨text, position, false⟩ : Lexer).next = (.ok p.current, p.lexer) ∧ p.Reads ks q

theorem Spells.nil : Spells text [] text := fun position => ⟨position, fun q next => ⟨q, next, .nil⟩⟩

theorem Spells.append (first : Spells text ks middle) (second : Spells middle ms rest) :
    Spells text (ks ++ ms) rest := by
  intro position
  obtain ⟨between, first⟩ := first position
  obtain ⟨after, second⟩ := second between
  refine ⟨after, fun r last => ?_⟩
  obtain ⟨q, next, tail⟩ := second r last
  obtain ⟨p, start, head⟩ := first q next
  exact ⟨p, start, head.append tail⟩

theorem Spells.cons (first : Spells text [kind] middle) (second : Spells middle ks rest) :
    Spells text (kind :: ks) rest :=
  first.append second

theorem spells_of_next (h : ∀ position, ∃ start after,
    (⟨text, position, false⟩ : Lexer).next = (.ok ⟨kind, start⟩, ⟨rest, after, false⟩)) :
    Spells text [kind] rest := by
  intro position
  obtain ⟨start, after, next⟩ := h position
  exact ⟨after, fun q step => ⟨⟨⟨rest, after, false⟩, ⟨kind, start⟩⟩, next, Place.Steps.reads step⟩⟩

/-- Gaps before a token are skipped. -/
theorem Spells.gap (h : Spells text ks rest) : Spells (' ' :: text) ks rest := by
  intro position
  obtain ⟨after, h⟩ := h (position + 1)
  refine ⟨after, fun q last => ?_⟩
  obtain ⟨p, next, reads⟩ := h q last
  refine ⟨p, ?_, reads⟩
  have skipped : (⟨' ' :: text, position, false⟩ : Lexer).skipGap =
      (⟨text, position + 1, false⟩ : Lexer).skipGap := by
    simp [Lexer.skipGap, isGap]
    omega
  have same : (⟨' ' :: text, position, false⟩ : Lexer).next =
      (⟨text, position + 1, false⟩ : Lexer).next := congrArg Lexer.token skipped
  rw [same, next]

theorem spells_of_spelled (h : Spelled [] kind text rest) : Spells (text ++ rest) [kind] rest := by
  refine spells_of_next fun position => ⟨position, position + text.length, ?_⟩
  have next : (⟨[] ++ (text ++ rest), position, false⟩ : Lexer).next = _ :=
    next_of_gap (List.forall_mem_nil _) h.solid position
  exact next.trans (h.token position)

theorem spells_sign {size : Nat} (sign : signAt text = some (kind, size)) :
    Spells text [kind] (text.drop size) := by
  have starts := startsWithSign_of_signAt sign
  have found := signAt_of_startsWithSign starts
  obtain ⟨rest, rfl⟩ := starts.here
  rw [sign] at found
  cases found
  rw [List.drop_left]
  exact spells_of_spelled (.sign starts)

theorem spells_single (alone : text.head?.bind (pairKind c) = none)
    (single : singleKind c = some kind) : Spells (c :: text) [kind] text := by
  have sign : signAt (c :: text) = some (kind, 1) := by
    rw [signAt, alone, single]
    rfl
  exact spells_sign sign

theorem spells_count (rest : List Char) : Spells ('n' :: rest) [.count] rest :=
  spells_single (by cases rest <;> rfl) rfl

theorem spells_opening (rest : List Char) : Spells ('(' :: rest) [.opening] rest :=
  spells_single (by cases rest <;> rfl) rfl

theorem spells_closing (rest : List Char) : Spells (')' :: rest) [.closing] rest :=
  spells_single (by cases rest <;> rfl) rfl

theorem signAt_symbol (o : Op) (rest : List Char) :
    signAt (o.symbol.toList ++ ' ' :: rest) = some (.op o, o.symbol.toList.length) := by
  cases o <;> rfl

theorem spells_op (o : Op) (rest : List Char) :
    Spells (' ' :: (o.symbol.toList ++ ' ' :: rest)) [.op o] (' ' :: rest) := by
  have spelled := spells_sign (signAt_symbol o rest)
  rw [List.drop_left] at spelled
  exact spelled.gap

/-- A number ends where its digits do. -/
theorem spells_digits {n : Nat} (fits : n < numberLimit)
    (stops : ∀ c ∈ rest.head?, c.isDigit = false) :
    Spells (Nat.toDigits 10 n ++ rest) [.number (Int64.ofNat n)] rest := by
  have run : DigitRun [] (Nat.toDigits 10 n) rest :=
    ⟨Nat.toDigits_ne_nil, fun _ => isDigit_toDigits, nofun, stops⟩
  refine spells_of_spelled (.number run ?_)
  rw [Nat.ofDigitChars_ten_toDigits, Int64.toInt_ofNat_of_lt fits]

end Spelling

theorem Op.power_pos (o : Op) : 0 < o.power := by
  cases o <;> decide

namespace Expr

def literals : Expr → List Int64
  | number v => [v]
  | count => []
  | not x => x.literals
  | binary _ l r => l.literals ++ r.literals
  | choice c t e => c.literals ++ t.literals ++ e.literals

/-- Nesting levels of the written form. -/
def need : Expr → Nat
  | number _ => 1
  | count => 1
  | not x => 2 + x.need
  | binary _ l r => max (1 + l.need) (3 + r.need)
  | choice c t e => max (1 + c.need) (max (3 + t.need) (3 + e.need))

def kinds : Expr → List Kind
  | number v => [.number v]
  | count => [.count]
  | not x => .not :: .opening :: (x.kinds ++ [.closing])
  | binary o l r => .opening :: (l.kinds ++ .op o :: (r.kinds ++ [.closing]))
  | choice c t e =>
    .opening :: (c.kinds ++ .question :: (t.kinds ++ .colon :: (e.kinds ++ [.closing])))

theorem written_of_nonneg {v : Int64} (nonneg : 0 ≤ v) :
    (number v).written = Nat.toDigits 10 v.toInt.toNat := by
  have shown : (number v).written = v.toInt.repr.toList := rfl
  have bound : 0 ≤ v.toInt := Int64.le_iff_toInt_le.1 nonneg
  rw [shown, Int.repr_eq_if, if_pos bound, Nat.toList_repr]

/-- The written form has its tokens before any text that does not start with a digit. -/
theorem spells_written (e : Expr) (nonneg : ∀ v ∈ e.literals, 0 ≤ v) (rest : List Char)
    (stops : ∀ c ∈ rest.head?, c.isDigit = false) : Spells (e.written ++ rest) e.kinds rest := by
  induction e generalizing rest with
  | number v =>
    have positive : 0 ≤ v := nonneg v List.mem_cons_self
    have bound : 0 ≤ v.toInt := Int64.le_iff_toInt_le.1 positive
    have fits : v.toInt.toNat < numberLimit := by
      have := v.toInt_lt
      rw [numberLimit]
      omega
    have value : Int64.ofNat v.toInt.toNat = v := by
      refine Int64.toInt_inj.1 ?_
      rw [Int64.toInt_ofNat_of_lt fits, Int.toNat_of_nonneg bound]
    have spelled := spells_digits fits stops
    rw [value] at spelled
    rw [written_of_nonneg positive]
    exact spelled
  | count => exact spells_count rest
  | not x ih =>
    have operand := ih nonneg (')' :: rest) (by simp)
    have text : (not x).written ++ rest = '!' :: '(' :: (x.written ++ ')' :: rest) := by
      simp [written]
    rw [text]
    exact (spells_single rfl rfl).cons
      ((spells_opening _).cons (operand.append (spells_closing rest)))
  | binary o l r left right =>
    obtain ⟨leftNonneg, rightNonneg⟩ := List.forall_mem_append.1 nonneg
    have second := right rightNonneg (')' :: rest) (by simp)
    have first := left leftNonneg (' ' :: (o.symbol.toList ++ ' ' :: (r.written ++ ')' :: rest)))
      (by simp)
    have text : (binary o l r).written ++ rest =
        '(' :: (l.written ++ ' ' :: (o.symbol.toList ++ ' ' :: (r.written ++ ')' :: rest))) := by
      simp [written]
    rw [text]
    exact (spells_opening _).cons (first.append
      ((spells_op o _).cons (second.gap.append (spells_closing rest))))
  | choice c t e condition whenTrue whenFalse =>
    obtain ⟨nonneg, falseNonneg⟩ := List.forall_mem_append.1 nonneg
    obtain ⟨conditionNonneg, trueNonneg⟩ := List.forall_mem_append.1 nonneg
    have third := whenFalse falseNonneg (')' :: rest) (by simp)
    have second := whenTrue trueNonneg (' ' :: ':' :: ' ' :: (e.written ++ ')' :: rest)) (by simp)
    have first := condition conditionNonneg (' ' :: '?' :: ' ' ::
      (t.written ++ ' ' :: ':' :: ' ' :: (e.written ++ ')' :: rest))) (by simp)
    have text : (choice c t e).written ++ rest = '(' :: (c.written ++ ' ' :: '?' :: ' ' ::
        (t.written ++ ' ' :: ':' :: ' ' :: (e.written ++ ')' :: rest))) := by
      simp [written]
    have question (tail : List Char) :
        Spells (' ' :: '?' :: ' ' :: tail) [.question] (' ' :: tail) :=
      (spells_single rfl rfl).gap
    have colon (tail : List Char) : Spells (' ' :: ':' :: ' ' :: tail) [.colon] (' ' :: tail) :=
      (spells_single rfl rfl).gap
    rw [text]
    exact (spells_opening _).cons (first.append ((question _).cons
      (second.gap.append ((colon _).cons (third.gap.append (spells_closing rest))))))

/-- The written form is read at the cost of its need, with one level left on the spine. -/
theorem nests_written {e : Expr} {power : Nat} {p q : Place} (reads : p.Reads e.kinds q) :
    Nests e.need 1 power p e q := by
  induction e generalizing power p q with
  | number v => exact nests_number reads
  | count => exact nests_count reads
  | not x ih =>
    obtain ⟨kind, m, step, reads⟩ := Place.reads_cons_iff.1 reads
    obtain ⟨opening, r, next, reads⟩ := Place.reads_cons_iff.1 reads
    obtain ⟨s, inner, reads⟩ := Place.reads_append_iff.1 reads
    obtain ⟨closing, t, last, ⟨⟩⟩ := Place.reads_cons_iff.1 reads
    have operand : Nests (x.need + 1) 1 80 m x q := nests_group opening next (ih inner) closing last
    have whole : Nests (x.need + 1 + 1) 1 power p (.not x) q := nests_not kind step operand
    rw [need, Nat.add_comm]
    exact whole
  | binary o l r left right =>
    obtain ⟨opening, m, step, reads⟩ := Place.reads_cons_iff.1 reads
    obtain ⟨s, first, reads⟩ := Place.reads_append_iff.1 reads
    obtain ⟨kind, t, next, reads⟩ := Place.reads_cons_iff.1 reads
    obtain ⟨u, second, reads⟩ := Place.reads_append_iff.1 reads
    obtain ⟨closing, v, last, ⟨⟩⟩ := Place.reads_cons_iff.1 reads
    have stays : u.current.kind.power ≤ o.power := by simp [closing, Kind.power]
    have inner := nests_binary (left first) kind o.power_pos next (right second) stays
    have cost : max l.need (1 + 1 + r.need) + 1 = (binary o l r).need := by
      rw [need]
      omega
    exact cost ▸ nests_group opening step inner closing last
  | choice c t e condition whenTrue whenFalse =>
    obtain ⟨opening, m, step, reads⟩ := Place.reads_cons_iff.1 reads
    obtain ⟨s, first, reads⟩ := Place.reads_append_iff.1 reads
    obtain ⟨kind, u, next, reads⟩ := Place.reads_cons_iff.1 reads
    obtain ⟨v, second, reads⟩ := Place.reads_append_iff.1 reads
    obtain ⟨colon, w, after, reads⟩ := Place.reads_cons_iff.1 reads
    obtain ⟨x, third, reads⟩ := Place.reads_append_iff.1 reads
    obtain ⟨closing, y, last, ⟨⟩⟩ := Place.reads_cons_iff.1 reads
    have stays : x.current.kind.power ≤ 0 := by simp [closing, Kind.power]
    have inner := nests_choice (condition first) kind (show 0 < 20 by decide) next
      (whenTrue second) colon after (whenFalse third) stays
    have cost : max c.need (1 + 1 + max t.need e.need) + 1 = (choice c t e).need := by
      rw [need]
      omega
    exact cost ▸ nests_group opening step inner closing last

end Expr

section Numbers

variable {p q : Place} {ks : List Kind} {e : Expr}

theorem Place.Reads.nonneg {l : Lexer} (reads : p.Reads ks q)
    (first : l.next = (.ok p.current, p.lexer)) : ∀ v, .number v ∈ ks → 0 ≤ v := by
  induction reads generalizing l with
  | nil => simp
  | cons step _ ih =>
    intro v member
    rcases List.mem_cons.1 member with number | later
    · exact Lexer.nonneg_of_token (Lexer.next_ok first).2 number.symm
    · exact ih step v later

theorem Derives.nonneg {rank : Rank} (derives : Derives rank ks e)
    (plain : ∀ v, .number v ∈ ks → 0 ≤ v) : ∀ v ∈ e.literals, 0 ≤ v := by
  induction derives with
  | number v => simpa [Expr.literals] using plain
  | count => simp [Expr.literals]
  | group _ ih => exact ih (by simpa using plain)
  | not _ ih => exact ih (by simpa using plain)
  | binary _ _ _ left right =>
    refine List.forall_mem_append.2 ⟨left fun v member => ?_, right fun v member => ?_⟩
    · exact plain v (by simp [member])
    · exact plain v (by simp [member])
  | choice _ _ _ condition whenTrue whenFalse =>
    refine List.forall_mem_append.2 ⟨List.forall_mem_append.2 ⟨condition fun v member => ?_,
      whenTrue fun v member => ?_⟩, whenFalse fun v member => ?_⟩
    · exact plain v (by simp [member])
    · exact plain v (by simp [member])
    · exact plain v (by simp [member])
  | tighter _ _ ih => exact ih plain

theorem nonneg_of_parse {text : String} (h : parse text = .ok e) : ∀ v ∈ e.literals, 0 ≤ v := by
  obtain ⟨p, q, first, reading, -⟩ := parse_ok h
  obtain ⟨-, ks, reads, derives⟩ := readExpr_sound maxNesting 0 p e q reading
  exact derives.nonneg (reads.nonneg first)

end Numbers

/-- The places between which the tokens of a text stand. -/
theorem Spells.exists_reads {text : List Char} {ks : List Kind} (h : Spells text ks []) :
    ∃ p q : Place, (Lexer.ofText text).next = (.ok p.current, p.lexer) ∧ p.Reads ks q ∧
      q.current.kind = .finish := by
  obtain ⟨after, spelled⟩ := h 0
  obtain ⟨p, first, reads⟩ := spelled ⟨⟨[], after, false⟩, ⟨.finish, after⟩⟩ rfl
  exact ⟨p, _, first, reads, rfl⟩

/-- A whole text is read if its tokens nest within the limit, and refused otherwise. -/
theorem Spells.parse {text : List Char} {ks : List Kind} {e : Expr} {need spine : Nat}
    (h : Spells text ks []) (nests : ∀ p q : Place, p.Reads ks q → q.current.kind.power ≤ 0 →
      Nests need spine 0 p e q) :
    (need ≤ 256 → Plural.parse (String.ofList text) = .ok e) ∧
    (256 < need → ∃ position,
      Plural.parse (String.ofList text) = .error (.tooDeeplyNested position)) := by
  obtain ⟨p, q, first, reads, finish⟩ := h.exists_reads
  have stays : q.current.kind.power ≤ 0 := by simp [finish, Kind.power]
  have needs := (nests p q reads stays).closed stays
  rw [← String.toList_ofList (l := text)] at first
  rw [parse_of_next first]
  exact ⟨fun enough =>
    whole_of_reading ((needs maxNesting).1 enough) finish (reads.arrives first finish),
    fun short => whole_of_exhausted ((needs maxNesting).2 short)⟩

section Whole

variable {e : Expr}

theorem parse_render_of_nonneg (nonneg : ∀ v ∈ e.literals, 0 ≤ v) :
    (e.need ≤ 256 → parse e.render = .ok e) ∧
    (256 < e.need → ∃ position, parse e.render = .error (.tooDeeplyNested position)) := by
  have spelled := e.spells_written nonneg [] (by simp)
  rw [List.append_nil] at spelled
  exact spelled.parse fun _ _ reads _ => Expr.nests_written reads

theorem need_le_of_parse_render (h : parse e.render = .ok e) : e.need ≤ 256 := by
  refine Nat.not_lt.1 fun short => ?_
  obtain ⟨position, refused⟩ := (parse_render_of_nonneg (nonneg_of_parse h)).2 short
  rw [h] at refused
  cases refused

end Whole

/-- An expression is parsed back from its rendering exactly if its literals are nonnegative and its
need is within the limit; beyond the limit it is refused for nesting. -/
theorem parse_render (e : Expr) :
    (parse e.render = .ok e ↔ (∀ v ∈ e.literals, 0 ≤ v) ∧ e.need ≤ 256) ∧
    ((∀ v ∈ e.literals, 0 ≤ v) → 256 < e.need →
      ∃ position, parse e.render = .error (.tooDeeplyNested position)) := by
  refine ⟨⟨fun h => ?_, fun ⟨nonneg, enough⟩ => ?_⟩, fun nonneg short => ?_⟩
  · exact ⟨nonneg_of_parse h, need_le_of_parse_render h⟩
  · exact (parse_render_of_nonneg nonneg).1 enough
  · exact (parse_render_of_nonneg nonneg).2 short

end MessageCatalog.Plural
