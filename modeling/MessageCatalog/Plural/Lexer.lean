import MessageCatalog.Plural.SyntaxError

/-! Lexing one token per call. Spaces, tabs and carriage returns separate tokens. The end of the
text, a semicolon or a line feed ends the expression and is never passed, so the end token
repeats. -/
namespace MessageCatalog.Plural

/-- Remaining characters and byte offset; `inside` marks an offset within a refused character. -/
structure Lexer where
  rest : List Char
  position : Nat
  inside : Bool
  deriving DecidableEq, Repr

def isGap (c : Char) : Bool := c == ' ' || c == '\t' || c == '\r'

def endsExpression (c : Char) : Bool := c == ';' || c == '\n'

def pairKind : Char → Char → Option Kind
  | '!', '=' => some (.op .ne)
  | '<', '=' => some (.op .le)
  | '>', '=' => some (.op .ge)
  | '=', '=' => some (.op .eq)
  | '&', '&' => some (.op .and)
  | '|', '|' => some (.op .or)
  | _, _ => none

def singleKind : Char → Option Kind
  | 'n' => some .count
  | '(' => some .opening
  | ')' => some .closing
  | '?' => some .question
  | ':' => some .colon
  | '+' => some (.op .add)
  | '-' => some (.op .sub)
  | '*' => some (.op .mul)
  | '/' => some (.op .div)
  | '%' => some (.op .mod)
  | '!' => some .not
  | '<' => some (.op .lt)
  | '>' => some (.op .gt)
  | _ => none

def needsPartner (c : Char) : Bool := c == '=' || c == '&' || c == '|'

/-- A non-numeric token at the start of a text, with its length in characters. -/
def signAt : List Char → Option (Kind × Nat)
  | [] => none
  | c :: rest =>
    match rest.head?.bind (pairKind c) with
    | some kind => some (kind, 2)
    | none => (singleKind c).map (·, 1)

/-- Literals are below 2^63. -/
def numberLimit : Nat := 0x8000000000000000

namespace Lexer

def ofText (text : List Char) : Lexer := ⟨text, 0, false⟩

def skipGap (l : Lexer) : Lexer :=
  { l with
    rest := l.rest.dropWhile isGap
    position := l.position + (l.rest.takeWhile isGap).length }

def number (l : Lexer) : Except SyntaxError Token × Lexer :=
  let digits := l.rest.takeWhile Char.isDigit
  let value := Nat.ofDigitChars 10 digits 0
  let after := { l with
    rest := l.rest.dropWhile Char.isDigit
    position := l.position + digits.length }
  if value < numberLimit then (.ok ⟨.number (Int64.ofNat value), l.position⟩, after)
  else (.error (.invalidNumber (String.ofList digits)), after)

def token (l : Lexer) : Except SyntaxError Token × Lexer :=
  match l.rest with
  | [] => (.ok ⟨.finish, l.position⟩, l)
  | c :: rest =>
    if endsExpression c then (.ok ⟨.finish, l.position⟩, l)
    else if c.isDigit then l.number
    else match signAt (c :: rest) with
      | some (kind, size) =>
        (.ok ⟨kind, l.position⟩,
          { l with rest := l.rest.drop size, position := l.position + size })
      | none =>
        if needsPartner c then
          (.error (.unexpectedChar (rest.headD '\x00') (l.position + 1)),
            { l with rest := rest, position := l.position + 1 })
        else
          (.error (.unexpectedChar c l.position),
            { rest := rest, position := l.position + 1, inside := c.utf8Size != 1 })

/-- The next token or fault, with the lexer after it. -/
def next (l : Lexer) : Except SyntaxError Token × Lexer :=
  if l.inside then (.error (.insideCharacter l.position), l) else l.skipGap.token

end Lexer
end MessageCatalog.Plural
