import MessageCatalog.Plural.Reader

/-! `Plural-Forms` header values: a count after `nplurals=` and an expression after `plural=`, in
either order and any letter case. -/
namespace MessageCatalog.Plural

/-- Case-insensitive; `key` is in lower case. -/
def startsWithKey (key text : List Char) : Bool :=
  (text.take key.length).map Char.toLower == key

/-- The text after the first `key` whose preceding character `stands` accepts. -/
def afterKey (key : List Char) (stands : Option Char → Bool) :
    Option Char → List Char → Option (List Char)
  | before, text =>
    if startsWithKey key text && stands before then some (text.drop key.length)
    else match text with
      | [] => none
      | c :: rest => afterKey key stands (some c) rest

def afterCountKey (text : List Char) : Option (List Char) :=
  afterKey "nplurals=".toList (fun _ => true) none text

/-- Excludes the `plural=` inside `nplurals=`. -/
def afterFormulaKey (text : List Char) : Option (List Char) :=
  afterKey "plural=".toList (fun before => before.map Char.toLower != some 'n') none text

def parseFormCount (text : String) : Except SyntaxError UInt64 :=
  match afterCountKey text.toList with
  | none => .error (.missingParameter "nplurals")
  | some rest =>
    let digits := rest.takeWhile Char.isDigit
    let value := Nat.ofDigitChars 10 digits 0
    if digits.isEmpty then .error (.missingParameter "nplurals")
    else if value < UInt64.size then .ok (UInt64.ofNat value)
    else .error (.invalidNumber (String.ofList digits))

/-- Up to the next semicolon or line feed. -/
def formulaText (text : String) : Except SyntaxError String :=
  match afterFormulaKey text.toList with
  | none => .error (.missingParameter "plural")
  | some rest =>
    let formula := rest.takeWhile (fun c => !endsExpression c)
    if formula.isEmpty then .error (.missingParameter "plural")
    else .ok (String.ofList formula)

def parseForms (text : String) : Except SyntaxError (UInt64 × Expr) := do
  let count ← parseFormCount text
  let formula ← formulaText text
  let expr ← parse formula
  .ok (count, expr)

end MessageCatalog.Plural
