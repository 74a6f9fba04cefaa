import MessageCatalog.Proofs.Plural.Rendering

/-! Height of accepted trees. Nested expressions restore levels, so an operand of any height is
continued by as many operators as a number is; the exact bound is far above the nesting limit. -/
namespace MessageCatalog.Plural

def Expr.height : Expr → Nat
  | number _ => 1
  | count => 1
  | not x => 1 + x.height
  | binary _ l r => 1 + max l.height r.height
  | choice c t e => 1 + max c.height (max t.height e.height)

theorem Expr.height_pos (e : Expr) : 1 ≤ e.height := by
  cases e <;> simp [height]

/-- Greatest height of an operand with these levels left. -/
def tallestOperand : Nat → Nat
  | 0 => 1
  | levels + 1 => tallestOperand levels + max 1 (levels - 1)

/-- Greatest height of an expression with these levels. -/
def tallest : Nat → Nat
  | 0 => 0
  | levels + 1 => tallestOperand levels + (levels - 1)

theorem tallestOperand_pos (levels : Nat) : 1 ≤ tallestOperand levels := by
  induction levels with
  | zero => exact Nat.le_refl 1
  | succ levels ih => exact Nat.le_add_right_of_le ih

theorem tallest_le_tallestOperand (levels : Nat) : tallest levels ≤ tallestOperand levels := by
  cases levels with
  | zero => exact Nat.zero_le 1
  | succ levels =>
    rw [tallest, tallestOperand]
    omega

theorem tallest_pred_le (levels : Nat) : tallest (levels - 1) ≤ tallest levels := by
  cases levels with
  | zero => exact Nat.le_refl 0
  | succ levels => exact Nat.le_add_right_of_le (tallest_le_tallestOperand levels)

section Bound

variable {levels tall : Nat} {token : Token} {left e : Expr} {m q : Place}

def Bounded (levels : Nat) : Prop :=
  ∀ power p e q, readExpr levels power p = .ok (e, q) →
    e.height ≤ tallest levels ∧ (80 ≤ power → e.height ≤ tallestOperand (levels - 1))

theorem OperandRead.height_le (bounded : Bounded levels)
    (read : OperandRead (nestedAt levels) token m e q) : e.height ≤ tallestOperand levels := by
  cases read with
  | number => exact tallestOperand_pos levels
  | count => exact tallestOperand_pos levels
  | not _ operand =>
    cases levels with
    | zero => exact absurd operand readExpr_zero
    | succ levels =>
      have low := (bounded _ _ _ _ operand).2 (Nat.le_refl 80)
      rw [Nat.add_sub_cancel] at low
      rw [Expr.height, tallestOperand]
      omega
  | group _ inner =>
    exact Nat.le_trans (bounded _ _ _ _ inner).1 (tallest_le_tallestOperand levels)

/-- Each operator adds one to the height, unless what it nests is higher. -/
theorem ContinuationRead.height_le (bounded : Bounded levels)
    (read : ContinuationRead (nestedAt levels) left token m e q) (low : left.height ≤ tall)
    (le : tallest levels ≤ tall) : e.height ≤ tall + 1 := by
  cases read with
  | binary _ operand =>
    have right := (bounded _ _ _ _ operand).1
    rw [Expr.height]
    omega
  | choice _ whenTrue _ _ whenFalse =>
    have first := (bounded _ _ _ _ whenTrue).1
    have second := (bounded _ _ _ _ whenFalse).1
    rw [Expr.height]
    omega

theorem ContinuationRead.levels_pos (read : ContinuationRead (nestedAt levels) left token m e q) :
    0 < levels := by
  refine Nat.pos_of_ne_zero ?_
  rintro rfl
  cases read with
  | binary _ operand => exact readExpr_zero operand
  | choice _ whenTrue => exact readExpr_zero whenTrue

/-- One step per level: an operand, then its operators. -/
theorem read_height (levels : Nat) : Bounded levels ∧
    ∀ power left p e q tall, readTail levels power left p = .ok (e, q) → left.height ≤ tall →
      tallest (levels - 1) ≤ tall → e.height ≤ tall + (levels - 1) := by
  induction levels with
  | zero =>
    refine ⟨fun power p e q h => absurd h readExpr_zero, fun power left p e q tall h low _ => ?_⟩
    obtain ⟨_, rfl, _⟩ | ⟨free, _, _, _, none, _⟩ := readTail_ok h
    · exact low
    · cases none
  | succ levels ih =>
    obtain ⟨bounded, tail⟩ := ih
    refine ⟨fun power p e q h => ?_, fun power left p e q tall h low le => ?_⟩
    · obtain ⟨m, left, r, _, operand, h⟩ := readExpr_ok h
      have low := operand.height_le bounded
      have le := Nat.le_trans (tallest_pred_le levels) (tallest_le_tallestOperand levels)
      refine ⟨tail power left r e q _ h low le, fun high => ?_⟩
      rw [readTail_stays levels (Nat.le_trans (Kind.power_le _) high)] at h
      cases h
      exact low
    · obtain ⟨_, rfl, _⟩ | ⟨free, m, longer, r, same, _, _, read, h⟩ := readTail_ok h
      · exact Nat.le_add_right_of_le low
      · cases same
        have pos := read.levels_pos
        have higher := read.height_le bounded low le
        have last := tail power longer r e q _ h higher
          (Nat.le_trans (tallest_pred_le levels) (Nat.le_add_right_of_le le))
        omega

end Bound

def negated : Nat → Expr
  | 0 => .count
  | times + 1 => .not (negated times)

def increased (e : Expr) : Nat → Expr
  | 0 => e
  | times + 1 => .binary .add (increased e times) .count

def tower : Nat → Expr
  | 0 => negated 3
  | floors + 1 => increased (tower floors) (floors + 2)

def negatedText (times : Nat) : List Char := List.replicate times '!' ++ ['n']

def increaseText : Nat → List Char
  | 0 => []
  | times + 1 => increaseText times ++ ['+', 'n']

def towerText : Nat → List Char
  | 0 => negatedText 3
  | floors + 1 => '(' :: (towerText floors ++ (increaseText (floors + 2) ++ [')']))

def negatedKinds (times : Nat) : List Kind := List.replicate times .not ++ [.count]

def increaseKinds : Nat → List Kind
  | 0 => []
  | times + 1 => increaseKinds times ++ [.op .add, .count]

def towerKinds : Nat → List Kind
  | 0 => negatedKinds 3
  | floors + 1 => .opening :: (towerKinds floors ++ (increaseKinds (floors + 2) ++ [.closing]))

section Texts

theorem spells_negatedText (times : Nat) (rest : List Char) :
    Spells (negatedText times ++ rest) (negatedKinds times) rest := by
  induction times with
  | zero => exact spells_count rest
  | succ times ih =>
    refine Spells.cons (spells_single ?_ rfl) ih
    cases times <;> rfl

theorem spells_increaseText (times : Nat) (rest : List Char) :
    Spells (increaseText times ++ rest) (increaseKinds times) rest := by
  induction times generalizing rest with
  | zero => exact Spells.nil
  | succ times ih =>
    have last : Spells ('+' :: 'n' :: rest) [.op .add, .count] rest :=
      (spells_single rfl rfl).cons (spells_count rest)
    rw [increaseText, List.append_assoc]
    exact (ih ('+' :: 'n' :: rest)).append last

theorem spells_towerText (floors : Nat) (rest : List Char) :
    Spells (towerText floors ++ rest) (towerKinds floors) rest := by
  induction floors generalizing rest with
  | zero => exact spells_negatedText 3 rest
  | succ floors ih =>
    have text : towerText (floors + 1) ++ rest =
        '(' :: (towerText floors ++ (increaseText (floors + 2) ++ ')' :: rest)) := by
      simp [towerText]
    rw [text]
    exact (spells_opening _).cons ((ih _).append
      ((spells_increaseText _ _).append (spells_closing rest)))

end Texts

section Nesting

variable {need spine power : Nat} {p m q : Place} {e : Expr}

theorem nests_negated {times : Nat} (reads : p.Reads (negatedKinds times) q) :
    Nests (times + 1) 1 power p (negated times) q := by
  induction times generalizing power p with
  | zero => exact nests_count reads
  | succ times ih =>
    obtain ⟨kind, m, step, reads⟩ := Place.reads_cons_iff.1 reads
    exact nests_not kind step (ih reads)

/-- Additions reuse the levels that a parenthesized operand gave back. -/
theorem nests_increased {times : Nat} (h : Nests need spine power p e m)
    (reads : m.Reads (increaseKinds times) q) (lt : power < 60)
    (stays : q.current.kind.power ≤ 60) (enough : spine + times + 1 ≤ need) :
    Nests need (spine + times) power p (increased e times) q := by
  induction times generalizing q with
  | zero => cases reads; exact h
  | succ times ih =>
    obtain ⟨r, reads, last⟩ := Place.reads_append_iff.1 reads
    obtain ⟨kind, s, step, last⟩ := Place.reads_cons_iff.1 last
    have closed : r.current.kind.power ≤ 60 := by rw [kind]; exact Nat.le_refl 60
    have before := ih reads closed (by omega)
    have whole := nests_binary before kind lt step (nests_count last) stays
    rw [Nat.max_eq_left (by omega)] at whole
    exact whole

theorem nests_tower {floors : Nat} (reads : p.Reads (towerKinds floors) q) :
    Nests (floors + 4) 1 power p (tower floors) q := by
  induction floors generalizing power p q with
  | zero => exact nests_negated reads
  | succ floors ih =>
    obtain ⟨opening, m, step, reads⟩ := Place.reads_cons_iff.1 reads
    obtain ⟨r, first, reads⟩ := Place.reads_append_iff.1 reads
    obtain ⟨s, more, reads⟩ := Place.reads_append_iff.1 reads
    obtain ⟨closing, t, last, ⟨⟩⟩ := Place.reads_cons_iff.1 reads
    have stays : s.current.kind.power ≤ 60 := by simp [closing, Kind.power]
    have inner := nests_increased (ih first) more (show 0 < 60 by decide) stays (by omega)
    exact nests_group opening step inner closing last

theorem parse_increased {text : List Char} {ks : List Kind} {times : Nat}
    (spelled : ∀ rest, Spells (text ++ rest) ks rest)
    (nests : ∀ {p q : Place}, p.Reads ks q → Nests need 1 0 p e q)
    (enough : times + 2 ≤ need) (le : need ≤ 256) :
    parse (String.ofList (text ++ increaseText times)) = .ok (increased e times) := by
  have whole := (spelled _).append (spells_increaseText times [])
  rw [List.append_nil] at whole
  have nested (p q : Place) (reads : p.Reads (ks ++ increaseKinds times) q)
      (stays : q.current.kind.power ≤ 0) : Nests need (1 + times) 0 p (increased e times) q := by
    obtain ⟨m, first, more⟩ := Place.reads_append_iff.1 reads
    exact nests_increased (nests first) more (by decide) (Nat.le_trans stays (Nat.zero_le 60))
      (by omega)
  exact (whole.parse nested).1 le

end Nesting

theorem height_increased (e : Expr) (times : Nat) :
    (increased e times).height = e.height + times := by
  have pos := e.height_pos
  induction times with
  | zero => rfl
  | succ times ih =>
    rw [increased, Expr.height, ih, Expr.height]
    omega

theorem height_tower (floors : Nat) : (tower floors).height = tallestOperand (floors + 3) := by
  induction floors with
  | zero => rfl
  | succ floors ih =>
    rw [tower, height_increased, ih, tallestOperand.eq_2 (floors + 3)]
    omega

theorem tallest_maxNesting : tallest maxNesting = 32388 := by
  decide +kernel

/-- A tree of this height is read, from nested parentheses. -/
theorem parse_tower : ∃ text e, parse text = .ok e ∧ e.height = 32388 := by
  refine ⟨String.ofList (towerText 252 ++ increaseText 254), increased (tower 252) 254, ?_, ?_⟩
  · exact parse_increased (spells_towerText 252) nests_tower (Nat.le_refl 256) (Nat.le_refl 256)
  · rw [height_increased, height_tower, ← tallest_maxNesting]
    rfl

section Short

def Expr.negations : Expr → Nat
  | not x => x.negations + 1
  | _ => 0

variable {nested : Nested} {levels power : Nat} {token : Token} {left e : Expr} {p m q : Place}
  {rank : Rank} {ks : List Kind}

/-- Every node has a token of its own, and only negations have no further one. -/
theorem Derives.height_le (derives : Derives rank ks e) :
    e.height ≤ ks.length ∧ (e.height = ks.length → e.height = e.negations + 1) := by
  induction derives with
  | number v => exact ⟨Nat.le_refl 1, fun _ => rfl⟩
  | count => exact ⟨Nat.le_refl 1, fun _ => rfl⟩
  | group _ ih =>
    simp only [List.length_append, List.length_cons, List.length_nil]
    omega
  | not _ ih =>
    simp only [Expr.height, Expr.negations, List.length_cons]
    omega
  | @binary o rank ks ms l r _ _ _ left right =>
    have := l.height_pos
    have := r.height_pos
    simp only [Expr.height, List.length_append, List.length_cons]
    omega
  | @choice ks ms ns c t e _ _ _ condition whenTrue whenFalse =>
    have := c.height_pos
    have := t.height_pos
    have := e.height_pos
    simp only [Expr.height, List.length_append, List.length_cons]
    omega
  | tighter _ _ ih => exact ih

theorem ContinuationRead.negations_eq (read : ContinuationRead nested left token m e q) :
    e.negations = 0 := by
  cases read <;> rfl

theorem negations_readTail_le (h : readTail levels power left p = .ok (e, q)) :
    e.negations ≤ left.negations := by
  induction levels generalizing left p with
  | zero =>
    obtain ⟨_, rfl, _⟩ | ⟨free, _, _, _, none, _⟩ := readTail_ok h
    · exact Nat.le_refl _
    · cases none
  | succ levels ih =>
    obtain ⟨_, rfl, _⟩ | ⟨free, m, longer, r, same, _, _, read, h⟩ := readTail_ok h
    · exact Nat.le_refl _
    · cases same
      have none := ih h
      rw [read.negations_eq] at none
      exact Nat.le_trans none (Nat.zero_le _)

/-- Each negation takes a level, and so does its operand. -/
theorem negations_lt (h : readExpr levels power p = .ok (e, q)) : e.negations < levels := by
  induction levels generalizing power p e q with
  | zero => exact absurd h readExpr_zero
  | succ levels ih =>
    obtain ⟨m, left, r, _, operand, h⟩ := readExpr_ok h
    refine Nat.lt_of_le_of_lt (negations_readTail_le h) ?_
    cases operand with
    | number => exact Nat.zero_lt_succ levels
    | count => exact Nat.zero_lt_succ levels
    | not _ operand => exact Nat.succ_lt_succ (ih operand)
    | group _ inner => exact Nat.lt_succ_of_lt (ih inner)

end Short

theorem Expr.height_le_need (e : Expr) : e.height ≤ e.need := by
  induction e with
  | number v => exact Nat.le_refl 1
  | count => exact Nat.le_refl 1
  | not x ih =>
    rw [height, need]
    omega
  | binary o l r left right =>
    rw [height, need]
    omega
  | choice c t e condition whenTrue whenFalse =>
    rw [height, need]
    omega

/-- The height of accepted trees is at most 32388, and within the nesting limit for at most 257
tokens and for rendered trees. -/
theorem height_of_parse (text : String) (e : Expr) (h : parse text = .ok e) :
    e.height ≤ 32388 ∧
    (∃ ts, tokens text = .ok ts ∧ (ts.length ≤ 257 → e.height ≤ 256)) ∧
    (text = e.render → e.height ≤ 256) := by
  obtain ⟨p, q, _, reading, _⟩ := parse_ok h
  refine ⟨tallest_maxNesting ▸ ((read_height maxNesting).1 0 p e q reading).1, ?_, ?_⟩
  · obtain ⟨ts, ok, derives⟩ := derives_of_parse h
    refine ⟨ts, ok, fun few => ?_⟩
    obtain ⟨le, negated⟩ := derives.height_le
    have short : e.negations < 256 := negations_lt reading
    rw [List.length_map] at le negated
    omega
  · rintro rfl
    exact Nat.le_trans e.height_le_need (need_le_of_parse_render h)

theorem height_of_parse_negated :
    parse "(!(n) + n)" = .ok (.binary .add (.not .count) .count) ∧
      (Expr.binary .add (.not .count) .count).height ≤ 256 := by
  have read : parse "(!(n) + n)" = .ok (.binary .add (.not .count) .count) := by decide +kernel
  exact ⟨read, (height_of_parse _ _ read).2.2 (by decide +kernel)⟩

/-- 255 negations and one addition exceed the limit as a height. -/
theorem parse_higher_than_limit :
    ∃ e, parse (String.ofList (List.replicate 255 '!' ++ ['n', '+', 'n'])) = .ok e ∧
      256 < e.height := by
  have text : negatedText 255 ++ increaseText 1 = List.replicate 255 '!' ++ ['n', '+', 'n'] := by
    rw [negatedText, List.append_assoc]
    rfl
  have read : parse (String.ofList (negatedText 255 ++ increaseText 1)) = _ :=
    parse_increased (spells_negatedText 255) nests_negated (by decide) (Nat.le_refl 256)
  exact ⟨_, text ▸ read, by decide +kernel⟩

end MessageCatalog.Plural
