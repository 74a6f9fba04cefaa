import MessageCatalog.Plural.Token

/-! Faults of plural expressions and their header values, with messages. -/
namespace MessageCatalog.Plural

/-- Maximum nesting levels; each chained operator counts as one. -/
def maxNesting : Nat := 256

inductive Wanted where
  | operand | operator | closing | colon | finish
  deriving DecidableEq, Repr

def Wanted.text : Wanted → String
  | operand => "n, number, '!' or '('"
  | operator => "operator"
  | closing => "')'"
  | colon => "':'"
  | finish => "end of expression"

/-- Positions are byte offsets. `insideCharacter` stands for a lexer resumed within a refused
character. -/
inductive SyntaxError where
  | unexpectedChar (ch : Char) (position : Nat)
  | unexpectedToken (wanted : Wanted) (found : Kind) (position : Nat)
  | invalidNumber (digits : String)
  | missingParameter (name : String)
  | tooDeeplyNested (position : Nat)
  | insideCharacter (position : Nat)
  deriving DecidableEq, Repr

def SyntaxError.message : SyntaxError → String
  | unexpectedChar ch position => s!"unexpected character '{ch}' at position {position}"
  | unexpectedToken wanted found position =>
    s!"expected {wanted.text}, found '{found.symbol}' at position {position}"
  | invalidNumber digits => s!"invalid number: {digits}"
  | missingParameter name => s!"missing '{name}' parameter"
  | tooDeeplyNested position =>
    s!"expression nested deeper than {maxNesting} levels at position {position}"
  | insideCharacter position => s!"position {position} is inside a character"

end MessageCatalog.Plural
