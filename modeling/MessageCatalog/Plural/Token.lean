import MessageCatalog.Plural.Op

/-! Tokens of plural expressions and their binding powers. -/
namespace MessageCatalog.Plural

inductive Kind where
  | number (value : Int64)
  | count
  | not
  | op (op : Op)
  | question
  | colon
  | opening
  | closing
  | finish
  deriving DecidableEq, Repr

/-- `position` is a byte offset. -/
structure Token where
  kind : Kind
  position : Nat
  deriving DecidableEq, Repr

namespace Kind

def symbol : Kind → String
  | number _ => "number"
  | count => "n"
  | not => "!"
  | op o => o.symbol
  | question => "?"
  | colon => ":"
  | opening => "("
  | closing => ")"
  | finish => "end of expression"

def value : Kind → Int64
  | number v => v
  | _ => 0

/-- Zero for tokens that cannot continue an expression. -/
def power : Kind → Nat
  | question => 20
  | op o => o.power
  | not => 80
  | _ => 0

end Kind
end MessageCatalog.Plural
