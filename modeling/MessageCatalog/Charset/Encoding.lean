import MessageCatalog.Charset.Utf8

/-! Character encodings. The encodings, their labels and their decoders are a parameter of
everything that reads catalogs. -/
namespace MessageCatalog.Charset

/-- A family of encodings; decoding is total. -/
class Encodings (E : Type) where
  utf8 : E
  ofLabel? : String → Option E
  decode : E → List UInt8 → List Char

/-- Decoding inverts UTF-8 encoding. Malformed input is unconstrained. -/
def ReadsUtf8 (E : Type) [Encodings E] : Prop :=
  ∀ text : List Char, Encodings.decode (Encodings.utf8 : E) (Utf8.encode text) = text

end MessageCatalog.Charset
