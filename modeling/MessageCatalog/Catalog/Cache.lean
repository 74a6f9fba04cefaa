import MessageCatalog.Catalog.Load
import MessageCatalog.Catalog.Shelf
import MessageCatalog.Locale.Environment

/-! A cache with one catalog per domain, all for one locale. A change of locale reloads catalogs in
place; a reset detaches them. -/
namespace MessageCatalog.Catalog

open Files

structure Cache (E : Type) where
  dirs : List Path
  options : LoadOptions E
  locale : String
  domains : Table Handle
  shelf : Shelf
  deriving DecidableEq

namespace Cache

variable {E : Type}

def empty (dirs : List Path) (locale : String) (options : LoadOptions E) : Cache E :=
  ⟨dirs, options, locale, Table.empty, Shelf.empty⟩

def reset (c : Cache E) : Cache E := { c with domains := Table.empty }

def contains (c : Cache E) (domain : String) : Bool := c.domains.contains domain

def size (c : Cache E) : Nat := c.domains.size

def isEmpty (c : Cache E) : Bool := c.domains.isEmpty

variable [Charset.Encodings E]

def ofEnvironment (e : Locale.Environment) : Cache E :=
  empty e.searchDirs e.locale LoadOptions.standard

def load (c : Cache E) (tree : Tree) (domain locale : String) : Except Problem State :=
  State.load c.options tree c.dirs domain locale

/-- Loads a domain on first use; a failed load changes nothing. -/
def get (c : Cache E) (tree : Tree) (domain : String) : Except Problem Handle × Cache E :=
  match c.domains.find? domain with
  | some handle => (.ok handle, c)
  | none =>
    match c.load tree domain c.locale with
    | .error problem => (.error problem, c)
    | .ok state =>
      let (shelf, handle) := c.shelf.add state
      (.ok handle, { c with domains := c.domains.insert domain handle, shelf := shelf })

/-- Reloads each domain independently and returns the first problem. -/
def reloadAll (c : Cache E) (tree : Tree) (locale : String) :
    List (String × Handle) → Shelf → Except Problem Unit × Shelf
  | [], shelf => (.ok (), shelf)
  | (domain, handle) :: rest, shelf =>
    let (result, shelf) := shelf.reload handle (c.load tree domain locale)
    let (later, shelf) := c.reloadAll tree locale rest shelf
    match result with
    | .ok _ => (later, shelf)
    | .error problem => (.error problem, shelf)

/-- Switches the locale; a catalog that fails to load keeps its state. -/
def setLocale (c : Cache E) (tree : Tree) (locale : String) : Except Problem Unit × Cache E :=
  let (result, shelf) := c.reloadAll tree locale c.domains.entries c.shelf
  (result, { c with locale := locale, shelf := shelf })

end Cache
end MessageCatalog.Catalog
