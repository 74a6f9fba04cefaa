import MessageCatalog.Table

/-! Messages of a catalog: a map from keys, made of context and id, to the forms of a text. -/
namespace MessageCatalog

def contextMark : Char := '\x04'

/-- Separates forms, and an id from its plural. -/
def formMark : Char := '\x00'

/-- An empty context differs from none. -/
def contextKey (context id : String) : String := context ++ contextMark.toString ++ id

def messageKey (context : Option String) (id : String) : String :=
  match context with
  | some c => contextKey c id
  | none => id

abbrev Messages := Table (List String)

end MessageCatalog
