import MessageCatalog.Plural.Forms
import MessageCatalog.Plural.Staged

/-! Plural rules. The value of the expression is cut to its low 32 bits; look-ups decide whether
that is the index of a form. -/
namespace MessageCatalog.Plural

inductive Strategy where
  | interpreted | compiled
  deriving DecidableEq, Repr

def Strategy.name : Strategy → String
  | interpreted => "Interpreted"
  | compiled => "Compiled"

structure Rule where
  forms : UInt64
  expr : Expr
  strategy : Strategy
  deriving DecidableEq, Repr

namespace Rule

/-- The default: two forms, the first for one item. -/
def twoForms : Rule := ⟨2, .binary .ne .count (.number 1), .interpreted⟩

def ofHeader (text : String) (strategy : Strategy) : Except SyntaxError Rule := do
  let (forms, expr) ← parseForms text
  .ok ⟨forms, expr, strategy⟩

def selector (r : Rule) : Selector :=
  match r.strategy with
  | .interpreted => r.expr.evaluate
  | .compiled => r.expr.staged

def index (r : Rule) (n : Int64) : Except Fault Int32 := do
  let value ← r.selector n
  .ok value.toInt32

def describe (r : Rule) : String :=
  "PluralRule \x7b num_plurals: " ++ toString r.forms ++ ", expression: \"" ++ r.expr.render ++
    "\", strategy: " ++ r.strategy.name ++ " \x7d"

end Rule
end MessageCatalog.Plural
