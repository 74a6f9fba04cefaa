import MessageCatalog.LoadOptions
import MessageCatalog.Proofs.Charset.Utf8
import MessageCatalog.Text.Blank

/-! UTF-8 and ISO-8859-5, with all of their labels, as an instance for examples. -/
namespace MessageCatalog.Charset

inductive Cyrillic where
  | utf8 | iso5
  deriving DecidableEq, Repr

namespace Cyrillic

def labels : Cyrillic → List String
  | utf8 => ["unicode-1-1-utf-8", "unicode11utf8", "unicode20utf8", "utf-8", "utf8",
      "x-unicode20utf8"]
  | iso5 => ["csisolatincyrillic", "cyrillic", "iso-8859-5", "iso-ir-144", "iso8859-5", "iso88595",
      "iso_8859-5", "iso_8859-5:1988"]

def ofLabel? (label : String) : Option Cyrillic :=
  let isGap (c : Char) : Bool := c == ' ' || c == '\t' || c == '\n' || c == '\x0c' || c == '\r'
  let plain := String.ofList ((Text.stripBoth isGap label.toList).map Char.toLower)
  [utf8, iso5].find? fun encoding => encoding.labels.contains plain

/-- Letters follow code point order from 0xA1 on, with three exceptions. -/
def iso5Char (b : UInt8) : Char :=
  if b < 0xA1 || b == 0xAD then Char.ofNat b.toNat
  else if b == 0xF0 then '№'
  else if b == 0xFD then '§'
  else Char.ofNat (b.toNat + 0x360)

def decode : Cyrillic → List UInt8 → List Char
  | utf8, bytes => Utf8.decode bytes
  | iso5, bytes => bytes.map iso5Char

instance : Encodings Cyrillic := ⟨utf8, ofLabel?, decode⟩

theorem readsUtf8 : ReadsUtf8 Cyrillic := Utf8.decode_encode

def options : LoadOptions Cyrillic := .standard

end Cyrillic
end MessageCatalog.Charset
