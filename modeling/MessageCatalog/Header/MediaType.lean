import MessageCatalog.Table
import MessageCatalog.Text.Blank
import MessageCatalog.Text.Cut

/-! Media types `type/subtype; name=value; ...`. Parameter names are case-insensitive, values may be
quoted, and later parameters replace earlier ones. -/
namespace MessageCatalog.Header

structure MediaType where
  type : String
  subtype : String
  parameters : Table String
  deriving DecidableEq

def unquote : List Char → List Char
  | '"' :: rest => if rest.getLast? = some '"' then rest.dropLast else '"' :: rest
  | value => value

def parseParameter (part : List Char) : Option (String × String) :=
  match Text.cut '=' part with
  | none => none
  | some (name, value) =>
    let name := (Text.trim name).map Char.toLower
    if name.isEmpty then none
    else some (String.ofList name, String.ofList (unquote (Text.trim value)))

namespace MediaType

/-- Both parts around the slash must be nonblank. -/
def parse? (value : String) : Option MediaType :=
  match value.toList.splitOn ';' with
  | [] => none
  | essence :: parameters =>
    match Text.cut '/' (Text.trim essence) with
    | none => none
    | some (type, subtype) =>
      let type := Text.trim type
      let subtype := Text.trim subtype
      if type.isEmpty || subtype.isEmpty then none
      else some {
        type := String.ofList type
        subtype := String.ofList subtype
        parameters := Table.empty.insertAll (parameters.filterMap parseParameter) }

def parameter? (m : MediaType) (name : String) : Option String :=
  m.parameters.find? (String.ofList (name.toList.map Char.toLower))

/-- An empty charset counts as undeclared. -/
def charset? (m : MediaType) : Option String :=
  (m.parameter? "charset").filter (· != "")

end MediaType
end MessageCatalog.Header
