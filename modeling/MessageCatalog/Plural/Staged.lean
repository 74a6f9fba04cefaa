import MessageCatalog.Plural.Expr

/-! Plural expressions compiled to functions of the count. Parts independent of the count are
evaluated once, faults included, and literal operands are inlined. -/
namespace MessageCatalog.Plural

abbrev Selector := Int64 → Except Fault Int64

namespace Expr

/-- The left operand is evaluated first. -/
def joined (op : Op) (left right : Selector) : Selector := fun n => do
  let a ← left n
  let b ← right n
  op.apply a b

def staged : Expr → Selector
  | number v => fun _ => .ok v
  | count => fun n => .ok n
  | not x =>
    if x.usesCount then
      let operand := x.staged
      fun n => do
        let v ← operand n
        .ok (truth (v == 0))
    else
      let settled := (not x).evaluate 0
      fun _ => settled
  | binary op l r =>
    if l.usesCount || r.usesCount then
      match l, r with
      | count, number c => fun n => op.apply n c
      | _, number c =>
        let left := l.staged
        fun n => do
          let a ← left n
          op.apply a c
      | _, _ => joined op l.staged r.staged
    else
      let settled := (binary op l r).evaluate 0
      fun _ => settled
  | choice c t e =>
    if (choice c t e).usesCount then
      let condition := c.staged
      let whenTrue := t.staged
      let whenFalse := e.staged
      fun n => do
        let v ← condition n
        if v != 0 then whenTrue n else whenFalse n
    else
      let settled := (choice c t e).evaluate 0
      fun _ => settled

end Expr
end MessageCatalog.Plural
