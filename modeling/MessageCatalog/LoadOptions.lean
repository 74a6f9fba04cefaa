import MessageCatalog.Charset.Encoding
import MessageCatalog.Plural.Rule

/-! How catalogs are loaded. -/
namespace MessageCatalog

structure LoadOptions (E : Type) where
  /-- Strings are decoded with it until a header declares another one. -/
  encoding : E
  /-- Whether the charset that a header declares is followed. -/
  detectCharset : Bool
  strategy : Plural.Strategy
  deriving DecidableEq, Repr

def LoadOptions.standard {E : Type} [Charset.Encodings E] : LoadOptions E :=
  ⟨Charset.Encodings.utf8, true, .compiled⟩

end MessageCatalog
