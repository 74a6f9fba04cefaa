import MessageCatalog.Text.Blank

/-! Keys of template messages: trimmed context and id. -/
namespace MessageCatalog.Template

structure Key where
  context : Option String
  id : String
  deriving DecidableEq, Repr

namespace Key

def of (context : Option String) (id : String) : Key := ⟨context.map Text.trimmed, id⟩

/-- No context precedes any context. -/
def compareContexts : Option String → Option String → Ordering
  | none, none => .eq
  | none, some _ => .lt
  | some _, none => .gt
  | some a, some b => Ord.compare a b

/-- Context, then id, in code point order. -/
def compare (a b : Key) : Ordering :=
  (compareContexts a.context b.context).then (Ord.compare a.id b.id)

end Key
end MessageCatalog.Template
