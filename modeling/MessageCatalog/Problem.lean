import MessageCatalog.Plural.SyntaxError

/-! Problems of finding and loading catalogs. Recoverable ones become warnings, the others end the
load. -/
namespace MessageCatalog

inductive Problem where
  | invalidMagic (magic : Nat)
  | unsupportedRevision (major minor : Nat)
  | endOfData
  | unresolvedCharset (label : String)
  | invalidRule (cause : Plural.SyntaxError)
  | missingFile (domain locale : String)
  | inaccessible
  deriving DecidableEq, Repr

namespace Problem

def isRecoverable : Problem → Bool
  | unresolvedCharset _ | invalidRule _ | missingFile .. => true
  | invalidMagic _ | unsupportedRevision .. | endOfData | inaccessible => false

def hexWord (n : Nat) : String :=
  let digits := Nat.toDigits 16 n
  String.ofList (List.replicate (8 - digits.length) '0' ++ digits)

def message : Problem → String
  | invalidMagic magic => s!"invalid catalog format: invalid magic number: 0x{hexWord magic}"
  | unsupportedRevision major minor => s!"unsupported catalog revision {major}.{minor}"
  | endOfData => "unexpected end of catalog data"
  | unresolvedCharset label => s!"unable to resolve character set \"{label}\""
  | invalidRule cause => s!"invalid plural rule: {cause.message}"
  | missingFile domain locale =>
    s!"no translation file for domain \"{domain}\" and locale \"{locale}\""
  | inaccessible => "the file cannot be read"

end Problem
end MessageCatalog
