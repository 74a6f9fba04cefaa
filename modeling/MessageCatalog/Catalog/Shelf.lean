import MessageCatalog.Catalog.State

/-! Catalogs with exchangeable states, addressed by handles. Handle and version identify a state
object, so equal states remain distinguishable. -/
namespace MessageCatalog

/-- The installed state and the number of states installed before it. -/
structure Catalog where
  state : Catalog.State
  version : Nat
  deriving DecidableEq

namespace Catalog

def ofState (s : State) : Catalog := ⟨s, 0⟩

def replace (c : Catalog) (s : State) : Catalog := ⟨s, c.version + 1⟩

/-- A failed load changes nothing. -/
def reload (c : Catalog) (loaded : Except Problem State) : Except Problem Unit × Catalog :=
  match loaded with
  | .ok s => (.ok (), c.replace s)
  | .error problem => (.error problem, c)

abbrev Handle := Nat

structure Shelf where
  catalogs : List Catalog
  deriving DecidableEq

/-- A state with its handle and version. -/
structure Snapshot where
  handle : Handle
  version : Nat
  state : State
  deriving DecidableEq

namespace Shelf

def empty : Shelf := ⟨[]⟩

def catalog? (shelf : Shelf) (h : Handle) : Option Catalog := shelf.catalogs[h]?

/-- Handles are never reused. -/
def add (shelf : Shelf) (s : State) : Shelf × Handle :=
  (⟨shelf.catalogs ++ [ofState s]⟩, shelf.catalogs.length)

def replace (shelf : Shelf) (h : Handle) (s : State) : Shelf :=
  ⟨shelf.catalogs.modify h (·.replace s)⟩

def reload (shelf : Shelf) (h : Handle) (loaded : Except Problem State) :
    Except Problem Unit × Shelf :=
  (loaded.map fun _ => (), ⟨shelf.catalogs.modify h fun c => (c.reload loaded).2⟩)

def snapshot? (shelf : Shelf) (h : Handle) : Option Snapshot :=
  (shelf.catalog? h).map fun c => ⟨h, c.version, c.state⟩

def hasState (shelf : Shelf) (h : Handle) (s : Snapshot) : Bool :=
  h == s.handle && (shelf.catalog? h).any (·.version == s.version)

end Shelf
end Catalog
end MessageCatalog
