import MessageCatalog.Table
import MessageCatalog.Text.Blank
import MessageCatalog.Text.Cut

/-! Header fields, one `name: value` per line, trimmed. Lines without a colon or with a blank name
are skipped; later fields replace earlier ones. -/
namespace MessageCatalog.Header

abbrev Fields := Table String

def isLineEnd (c : Char) : Bool := c == '\n' || c == '\r'

def parseLine (line : List Char) : Option (String × String) :=
  match Text.cut ':' line with
  | none => none
  | some (name, value) =>
    let name := Text.trim name
    if name.isEmpty then none
    else some (String.ofList name, String.ofList (Text.trim value))

def statements (text : List Char) : List (String × String) :=
  (text.splitOnP isLineEnd).filterMap parseLine

namespace Fields

def parse (text : List Char) : Fields := Table.empty.insertAll (statements text)

/-- Exact name first, then ASCII case-insensitively. -/
def value? (fields : Fields) (name : String) : Option String :=
  match fields.find? name with
  | some v => some v
  | none =>
    let plain := name.toList.map Char.toLower
    (fields.entries.find? fun e => e.1.toList.map Char.toLower == plain).map Prod.snd

def extend (fields other : Fields) : Fields := fields.insertAll other.entries

end Fields
end MessageCatalog.Header
