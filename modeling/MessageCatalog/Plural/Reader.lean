import MessageCatalog.Plural.Expr
import MessageCatalog.Plural.Lexer

/-! Operator precedence parsing. Each expression and each continuing operator takes a nesting level,
which bounds the recursion. Success restores levels; failure leaves the reader where it stopped. -/
namespace MessageCatalog.Plural

structure Place where
  lexer : Lexer
  current : Token
  deriving DecidableEq, Repr

/-- Cause, place and free levels of a failure. -/
structure Stop where
  cause : SyntaxError
  place : Place
  levels : Nat
  deriving DecidableEq, Repr

namespace Place

def advance (p : Place) (levels : Nat) : Except Stop (Token × Place) :=
  match p.lexer.next with
  | (.ok token, lexer) => .ok (p.current, ⟨lexer, token⟩)
  | (.error cause, lexer) => .error ⟨cause, { p with lexer := lexer }, levels⟩

def refuse {α : Type} (p : Place) (levels : Nat) (wanted : Wanted) (token : Token) :
    Except Stop (α × Place) :=
  .error ⟨.unexpectedToken wanted token.kind token.position, p, levels⟩

def tooDeep {α : Type} (p : Place) : Except Stop (α × Place) :=
  .error ⟨.tooDeeplyNested p.current.position, p, 0⟩

def expect (p : Place) (levels : Nat) (kind : Kind) (wanted : Wanted) :
    Except Stop (Token × Place) :=
  if p.current.kind = kind then p.advance levels else p.refuse levels wanted p.current

end Place

/-- Reads a nested expression above a minimum power. -/
abbrev Nested := Nat → Place → Except Stop (Expr × Place)

def readOperand (nested : Nested) (levels : Nat) (token : Token) (p : Place) :
    Except Stop (Expr × Place) :=
  match token.kind with
  | .number v => .ok (.number v, p)
  | .count => .ok (.count, p)
  | .not => do
    let (x, p) ← nested token.kind.power p
    .ok (.not x, p)
  | .opening => do
    let (x, p) ← nested 0 p
    let (_, p) ← p.expect levels .closing .closing
    .ok (x, p)
  | _ => p.refuse levels .operand token

/-- Right operands take tighter operators only; branches take all. -/
def readContinuation (nested : Nested) (levels : Nat) (left : Expr) (token : Token) (p : Place) :
    Except Stop (Expr × Place) :=
  match token.kind with
  | .op o => do
    let (right, p) ← nested o.power p
    .ok (.binary o left right, p)
  | .question => do
    let (t, p) ← nested 0 p
    let (_, p) ← p.expect levels .colon .colon
    let (e, p) ← nested 0 p
    .ok (.choice left t e, p)
  | _ => p.refuse levels .operator token

mutual

/-- Reads operators above `power` within `levels` nesting levels. -/
def readExpr : (levels power : Nat) → Place → Except Stop (Expr × Place)
  | 0, _, p => p.tooDeep
  | levels + 1, power, p => do
    let (token, p) ← p.advance levels
    let (left, p) ← readOperand (fun power p => readExpr levels power p) levels token p
    readTail levels power left p

def readTail : (levels power : Nat) → Expr → Place → Except Stop (Expr × Place)
  | 0, power, left, p =>
    if power < p.current.kind.power then p.tooDeep else .ok (left, p)
  | levels + 1, power, left, p =>
    if power < p.current.kind.power then do
      let (token, p) ← p.advance levels
      let (left, p) ←
        readContinuation (fun power p => readExpr levels power p) levels left token p
      readTail levels power left p
    else .ok (left, p)

end

structure Reader where
  place : Place
  levels : Nat
  deriving DecidableEq, Repr

namespace Reader

def ofText (text : List Char) : Except SyntaxError Reader :=
  match (Lexer.ofText text).next with
  | (.ok token, lexer) => .ok ⟨⟨lexer, token⟩, maxNesting⟩
  | (.error cause, _) => .error cause

def expression (r : Reader) (power : Nat) : Except SyntaxError Expr × Reader :=
  match readExpr r.levels power r.place with
  | .ok (e, p) => (.ok e, { r with place := p })
  | .error stop => (.error stop.cause, ⟨stop.place, stop.levels⟩)

/-- Requires the end token. -/
def whole (r : Reader) : Except SyntaxError Expr :=
  match r.expression 0 with
  | (.error cause, _) => .error cause
  | (.ok e, after) =>
    match after.place.expect after.levels .finish .finish with
    | .ok _ => .ok e
    | .error stop => .error stop.cause

end Reader

def parse (text : String) : Except SyntaxError Expr := do
  let reader ← Reader.ofText text.toList
  reader.whole

end MessageCatalog.Plural
