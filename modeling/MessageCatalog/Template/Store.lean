import MessageCatalog.Files.Path
import MessageCatalog.Template.Entry
import MessageCatalog.Template.Heading

/-! Templates: messages merged by key in order of first occurrence, with an index from keys to
slots. Messages with an empty id are dropped. -/
namespace MessageCatalog

structure Template where
  path : Files.Path
  heading : Template.Heading
  entries : List Template.Entry
  /-- The slots, that of the key met last first. -/
  index : List (Template.Key × Nat)
  deriving DecidableEq

namespace Template

def new (path : Files.Path) (heading : Heading) : Template := ⟨path, heading, [], []⟩

def slot? (t : Template) (key : Key) : Option Nat := t.index.lookup key

def find? (t : Template) (key : Key) : Option Entry := (t.slot? key).bind (t.entries[·]?)

def get? (t : Template) (context : Option String) (id : String) : Option Entry :=
  t.find? (Key.of context id)

def changeAt (t : Template) (slot : Nat) (change : Entry → Entry) : Template :=
  { t with entries := t.entries.modify slot change }

def push (t : Template) (key : Key) : Template :=
  { t with
    entries := t.entries ++ [.new key.context key.id]
    index := (key, t.entries.length) :: t.index }

def update (t : Template) (key : Key) (change : Entry → Entry) : Template :=
  match t.slot? key with
  | some slot => t.changeAt slot change
  | none => t

/-- Creates the entry if absent. -/
def updateOrAdd (t : Template) (key : Key) (change : Entry → Entry) : Template :=
  match t.slot? key with
  | some slot => t.changeAt slot change
  | none => (t.push key).changeAt t.entries.length change

def add (t : Template) (context : Option String) (id reference : String) : Template :=
  if id.isEmpty then t
  else t.updateOrAdd (Key.of context id) (·.apply (.reference reference))

def addPlural (t : Template) (context : Option String) (id pluralId reference : String) :
    Template :=
  if id.isEmpty then t
  else t.updateOrAdd (Key.of context id) fun e =>
    (e.apply (.plural pluralId)).apply (.reference reference)

def edit (t : Template) (context : Option String) (id : String) (change : Edit) : Template :=
  t.update (Key.of context id) (·.apply change)

def written (t : Template) : List Char := t.heading.written ++ t.entries.flatMap Entry.written

def render (t : Template) : String := String.ofList t.written

end Template
end MessageCatalog
