import MessageCatalog.Template.Key
import MessageCatalog.Template.Wrapped

/-! Entries of a template: a message, its references and its notes. Values are noted once, and the
first plural id stays. -/
namespace MessageCatalog.Template

structure Entry where
  context : Option String
  id : String
  pluralId : Option String
  comments : List String
  references : List String
  flags : List String
  deriving DecidableEq, Repr

/-- Appends a value unless it is empty or present. -/
def noted (values : List String) (value : String) : List String :=
  if value.isEmpty || values.contains value then values else values ++ [value]

inductive Edit where
  | plural (id : String)
  | reference (value : String)
  | flag (value : String)
  | comment (value : String)
  deriving DecidableEq, Repr

namespace Entry

def new (context : Option String) (id : String) : Entry := ⟨context, id, none, [], [], []⟩

def key (e : Entry) : Key := Key.of e.context e.id

def takesPlural (e : Entry) (id : String) : Bool := !id.isEmpty && e.pluralId.isNone

def apply (e : Entry) : Edit → Entry
  | .plural id => if e.takesPlural id then { e with pluralId := some id } else e
  | .reference value => { e with references := noted e.references value }
  | .flag value => { e with flags := noted e.flags value }
  | .comment value => { e with comments := noted e.comments value }

def messageLines (e : Entry) : List (List Char) :=
  let line (keyword text : String) := keywordLines keyword.toList text.toList
  (match e.context with
    | some context => line "msgctxt" context
    | none => []) ++
  line "msgid" e.id ++
  (match e.pluralId with
    | some id => line "msgid_plural" id ++ line "msgstr[0]" "" ++ line "msgstr[1]" ""
    | none => line "msgstr" "")

def noteLines (e : Entry) : List (List Char) :=
  e.comments.map (fun c => ("#. " ++ c).toList) ++
  e.references.map (fun r => ("#: " ++ r).toList) ++
  (if e.flags.isEmpty then [] else [("#, " ++ ", ".intercalate e.flags).toList])

def written (e : Entry) : List Char := unlines (e.noteLines ++ e.messageLines ++ [[]])

def render (e : Entry) : String := String.ofList e.written

end Entry
end MessageCatalog.Template
