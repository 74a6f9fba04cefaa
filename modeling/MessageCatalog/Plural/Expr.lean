import MessageCatalog.Plural.Op

/-! Plural expressions over a count, their evaluation and rendering. `&&` and `||` evaluate both
operands, a choice only the taken branch. Rendering parenthesizes every compound below `!`. -/
namespace MessageCatalog.Plural

inductive Expr where
  | number (value : Int64)
  | count
  | not (operand : Expr)
  | binary (op : Op) (left right : Expr)
  | choice (condition whenTrue whenFalse : Expr)
  deriving DecidableEq, Repr

namespace Expr

def usesCount : Expr → Bool
  | number _ => false
  | count => true
  | not x => x.usesCount
  | binary _ l r => l.usesCount || r.usesCount
  | choice c t e => c.usesCount || t.usesCount || e.usesCount

def evaluate : Expr → Int64 → Except Fault Int64
  | number v, _ => .ok v
  | count, n => .ok n
  | not x, n => do
    let v ← x.evaluate n
    .ok (truth (v == 0))
  | binary op l r, n => do
    let a ← l.evaluate n
    let b ← r.evaluate n
    op.apply a b
  | choice c t e, n => do
    let v ← c.evaluate n
    if v != 0 then t.evaluate n else e.evaluate n

def written : Expr → List Char
  | number v => (toString v).toList
  | count => ['n']
  | not x => ['!', '('] ++ x.written ++ [')']
  | binary op l r =>
    ['('] ++ l.written ++ [' '] ++ op.symbol.toList ++ [' '] ++ r.written ++ [')']
  | choice c t e =>
    ['('] ++ c.written ++ [' ', '?', ' '] ++ t.written ++ [' ', ':', ' '] ++ e.written ++ [')']

def render (e : Expr) : String := String.ofList e.written

end Expr
end MessageCatalog.Plural
