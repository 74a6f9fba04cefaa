import MessageCatalog.Catalog.State
import MessageCatalog.Locale.Search

/-! Loading a state from an image, a file, or a search. An unsuccessful search yields an empty state
with a warning. -/
namespace MessageCatalog.Catalog.State

open Files

variable {E : Type} [Charset.Encodings E]

def ofImage (options : LoadOptions E) (locale : String) (data : List UInt8) :
    Except Problem State := do
  let image ← Image.read options data
  .ok (ofContents image.contents locale options.strategy)

def ofFile (options : LoadOptions E) (locale : String) (tree : Tree) (path : Path) :
    Except Problem State :=
  match tree.contents? path with
  | some data => ofImage options locale data
  | none => .error .inaccessible

def load (options : LoadOptions E) (tree : Tree) (dirs : List Path) (domain locale : String) :
    Except Problem State :=
  match Locale.find tree dirs domain locale with
  | .ok path => ofFile options locale tree path
  | .error problem => .ok ((empty locale).warn problem)

end MessageCatalog.Catalog.State
