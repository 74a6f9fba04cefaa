/-! Paths as they are written: steps between slashes, from the root. -/
namespace MessageCatalog.Files

structure Path where
  text : String
  deriving DecidableEq, Repr

namespace Path

/-- A name starting with a slash replaces the path. -/
def join (p : Path) (name : String) : Path :=
  if name.toList.head? = some '/' then ⟨name⟩
  else if p.text.isEmpty || p.text.toList.getLast? == some '/' then ⟨p.text ++ name⟩
  else ⟨p.text ++ "/" ++ name⟩

def extended (p : Path) (ending : String) : Path := ⟨p.text ++ ending⟩

def steps (p : Path) : List String := (p.text.toList.splitOn '/').map String.ofList

end Path

def staysHere (step : String) : Bool := step == "" || step == "."

def goesUp (step : String) : Bool := step == ".."

def isName (step : String) : Bool :=
  !staysHere step && !goesUp step && !step.toList.contains '\x00'

end MessageCatalog.Files
