import MessageCatalog.Plural.Expr
import MessageCatalog.Plural.Token

/-! The grammar of plural expressions by rank, stated without binding powers, and the correspondence
of ranks and powers. -/
namespace MessageCatalog.Plural

inductive Rank where
  | choice | or | and | equality | relational | additive | multiplicative | unary | primary
  deriving DecidableEq, Repr

namespace Rank

def tighter? : Rank → Option Rank
  | choice => some or
  | or => some and
  | and => some equality
  | equality => some relational
  | relational => some additive
  | additive => some multiplicative
  | multiplicative => some unary
  | unary => some primary
  | primary => none

end Rank

def Op.rank : Op → Rank
  | .or => .or
  | .and => .and
  | .eq | .ne => .equality
  | .lt | .le | .gt | .ge => .relational
  | .add | .sub => .additive
  | .mul | .div | .mod => .multiplicative

/-- Operators associate to the left, choices to the right; parentheses leave no trace. -/
inductive Derives : Rank → List Kind → Expr → Prop where
  | number (v : Int64) : Derives .primary [.number v] (.number v)
  | count : Derives .primary [.count] .count
  | group {ks : List Kind} {e : Expr} (inner : Derives .choice ks e) :
      Derives .primary (.opening :: ks ++ [.closing]) e
  | not {ks : List Kind} {e : Expr} (operand : Derives .unary ks e) :
      Derives .unary (.not :: ks) (.not e)
  | binary {o : Op} {rank : Rank} {ks ms : List Kind} {l r : Expr}
      (tighter : o.rank.tighter? = some rank) (left : Derives o.rank ks l)
      (right : Derives rank ms r) : Derives o.rank (ks ++ .op o :: ms) (.binary o l r)
  | choice {ks ms ns : List Kind} {c t e : Expr} (condition : Derives .or ks c)
      (whenTrue : Derives .choice ms t) (whenFalse : Derives .choice ns e) :
      Derives .choice (ks ++ .question :: (ms ++ .colon :: ns)) (.choice c t e)
  | tighter {rank next : Rank} {ks : List Kind} {e : Expr} (step : rank.tighter? = some next)
      (inner : Derives next ks e) : Derives rank ks e

namespace Rank

def depth : Rank → Nat
  | choice => 0
  | or => 1
  | and => 2
  | equality => 3
  | relational => 4
  | additive => 5
  | multiplicative => 6
  | unary => 7
  | primary => 8

instance : LE Rank := ⟨fun a b => a.depth ≤ b.depth⟩

instance (a b : Rank) : Decidable (a ≤ b) := inferInstanceAs (Decidable (a.depth ≤ b.depth))

theorem le_iff {a b : Rank} : a ≤ b ↔ a.depth ≤ b.depth := Iff.rfl

protected theorem le_trans {a b c : Rank} (ab : a ≤ b) (bc : b ≤ c) : a ≤ c := Nat.le_trans ab bc

theorem depth_injective {a b : Rank} (h : a.depth = b.depth) : a = b := by
  cases a <;> cases b <;> first | rfl | cases h

theorem depth_of_tighter? {a b : Rank} (h : a.tighter? = some b) : b.depth = a.depth + 1 := by
  cases a <;> cases h <;> rfl

theorem exists_tighter {a b : Rank} (lt : a.depth < b.depth) : ∃ next, a.tighter? = some next := by
  have bound : b.depth ≤ 8 := by cases b <;> decide
  cases a with
  | primary => exact absurd lt (Nat.not_lt.2 bound)
  | _ => exact ⟨_, rfl⟩

theorem le_of_tighter? {a b : Rank} (h : a.tighter? = some b) : a ≤ b := by
  rw [le_iff, depth_of_tighter? h]
  omega

/-- Operators of the rank stop at this power. -/
def hold : Rank → Nat
  | choice => 0
  | or => 30
  | and => 40
  | equality => 50
  | relational => 55
  | additive => 60
  | multiplicative => 70
  | unary => 80
  | primary => 80

theorem hold_le_of_tighter? {a b : Rank} (h : a.tighter? = some b) : a.hold ≤ b.hold := by
  cases a <;> cases h <;> decide

/-- The loosest rank above a power. -/
def above (power : Nat) : Rank :=
  if power < 20 then choice
  else if power < 30 then or
  else if power < 40 then and
  else if power < 50 then equality
  else if power < 55 then relational
  else if power < 60 then additive
  else if power < 70 then multiplicative
  else unary

theorem above_zero_le (rank : Rank) : above 0 ≤ rank := Nat.zero_le rank.depth

theorem above_le_unary (power : Nat) : above power ≤ unary := by
  grind [above, le_iff, depth]

theorem above_le_choice_iff {power : Nat} : above power ≤ choice ↔ power < 20 := by
  grind [above, le_iff, depth]

theorem above_le_iff {power : Nat} {rank : Rank} (or_le : or ≤ rank) (le : rank ≤ multiplicative) :
    above power ≤ rank ↔ power < rank.hold := by
  cases rank with
  | choice | unary | primary => exact absurd (And.intro or_le le) (by decide)
  | _ => grind [above, le_iff, depth, hold]

/-- A token below the power of a rank leaves its expressions whole. -/
theorem le_of_hold_le {a b : Rank} (h : a.hold ≤ b.hold) (compound : a ≠ primary) : a ≤ b := by
  revert h compound
  cases a <;> cases b <;> decide

theorem or_le_of_hold {rank : Rank} (h : 20 ≤ rank.hold) : or ≤ rank := by
  cases rank with
  | choice => exact absurd h (by decide)
  | _ => decide

end Rank

theorem Kind.power_le (kind : Kind) : kind.power ≤ 80 := by
  cases kind with
  | op o => cases o <;> decide
  | _ => simp [power]

namespace Op

theorem hold_rank (o : Op) : o.rank.hold = o.power := by cases o <;> rfl

theorem tighter?_rank (o : Op) : o.rank.tighter? = some (Rank.above o.power) := by
  cases o <;> rfl

theorem above_le_rank_iff {o : Op} {power : Nat} : Rank.above power ≤ o.rank ↔ power < o.power := by
  rw [← hold_rank]
  exact Rank.above_le_iff (by cases o <;> decide) (by cases o <;> decide)

theorem rank_le_of_power_le_hold {o : Op} {rank : Rank} (h : o.power ≤ rank.hold) :
    o.rank ≤ rank :=
  Rank.le_of_hold_le (o.hold_rank ▸ h) (by cases o <;> decide)

end Op

namespace Derives

variable {rank : Rank} {ks : List Kind} {e : Expr}

theorem loosen {tight loose : Rank} (h : Derives tight ks e) (le : loose ≤ tight) :
    Derives loose ks e := by
  -- On the number of ranks between the two.
  obtain ⟨gap, far⟩ := Nat.exists_eq_add_of_le (Rank.le_iff.1 le)
  induction gap generalizing loose with
  | zero => exact Rank.depth_injective far ▸ h
  | succ gap ih =>
    obtain ⟨next, step⟩ := Rank.exists_tighter (a := loose) (b := tight) (by omega)
    have deeper := Rank.depth_of_tighter? step
    exact .tighter step (ih (Rank.le_iff.2 (by omega)) (by omega))

theorem finish_notMem (h : Derives rank ks e) : .finish ∉ ks := by
  induction h with
  | number v => simp
  | count => simp
  | group _ ih => simpa using ih
  | not _ ih => simpa using ih
  | binary _ _ _ left right => simp [left, right]
  | choice _ _ _ condition whenTrue whenFalse => simp [condition, whenTrue, whenFalse]
  | tighter _ _ ih => exact ih

end Derives
end MessageCatalog.Plural
