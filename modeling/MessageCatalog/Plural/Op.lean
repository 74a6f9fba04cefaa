/-! Binary operators on signed 64-bit words. Arithmetic wraps, quotients and remainders truncate
toward zero and reject a zero divisor, and comparisons and logic give 0 or 1. -/
namespace MessageCatalog.Plural

inductive Op where
  | add | sub | mul | div | mod
  | eq | ne | lt | le | gt | ge
  | and | or
  deriving DecidableEq, Repr

inductive Fault where
  | divisionByZero
  deriving DecidableEq, Repr

def Fault.message : Fault → String
  | .divisionByZero => "division by zero"

namespace Op

def all : List Op := [.add, .sub, .mul, .div, .mod, .eq, .ne, .lt, .le, .gt, .ge, .and, .or]

def symbol : Op → String
  | .add => "+"
  | .sub => "-"
  | .mul => "*"
  | .div => "/"
  | .mod => "%"
  | .eq => "=="
  | .ne => "!="
  | .lt => "<"
  | .le => "<="
  | .gt => ">"
  | .ge => ">="
  | .and => "&&"
  | .or => "||"

def ofSymbol? (text : String) : Option Op := all.find? (·.symbol == text)

/-- Larger powers bind tighter. -/
def power : Op → Nat
  | .or => 30
  | .and => 40
  | .eq | .ne => 50
  | .lt | .le | .gt | .ge => 55
  | .add | .sub => 60
  | .mul | .div | .mod => 70

end Op

def truth (b : Bool) : Int64 := if b then 1 else 0

def divided (f : Int64 → Int64 → Int64) (l r : Int64) : Except Fault Int64 :=
  if r = 0 then .error .divisionByZero else .ok (f l r)

def Op.apply : Op → Int64 → Int64 → Except Fault Int64
  | .add, l, r => .ok (l + r)
  | .sub, l, r => .ok (l - r)
  | .mul, l, r => .ok (l * r)
  | .div, l, r => divided (· / ·) l r
  | .mod, l, r => divided (· % ·) l r
  | .eq, l, r => .ok (truth (l == r))
  | .ne, l, r => .ok (truth (l != r))
  | .lt, l, r => .ok (truth (decide (l < r)))
  | .le, l, r => .ok (truth (decide (l ≤ r)))
  | .gt, l, r => .ok (truth (decide (r < l)))
  | .ge, l, r => .ok (truth (decide (r ≤ l)))
  | .and, l, r => .ok (truth (l != 0 && r != 0))
  | .or, l, r => .ok (truth (l != 0 || r != 0))

end MessageCatalog.Plural
