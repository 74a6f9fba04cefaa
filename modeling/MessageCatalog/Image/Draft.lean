import MessageCatalog.Charset.Utf8
import MessageCatalog.Image.Layout
import MessageCatalog.Messages

/-! Writing catalog images. NUL-terminated strings follow the tables without gaps, id before text,
entry by entry. -/
namespace MessageCatalog.Image

structure Draft where
  order : Binary.ByteOrder
  revision : Revision
  entries : List Entry
  deriving DecidableEq, Repr

namespace Draft

def empty : Draft := ⟨.little, ⟨0, 0⟩, []⟩

def addBytes (d : Draft) (id text : List UInt8) : Draft :=
  { d with entries := d.entries ++ [⟨id, text⟩] }

def add (d : Draft) (id text : String) : Draft :=
  d.addBytes (Charset.Utf8.encode id.toList) (Charset.Utf8.encode text.toList)

def addWithContext (d : Draft) (context id text : String) : Draft :=
  d.add (contextKey context id) text

def addPlural (d : Draft) (context : Option String) (id pluralId : String) (forms : List String) :
    Draft :=
  d.add (messageKey context id ++ formMark.toString ++ pluralId)
    (formMark.toString.intercalate forms)

/-- Spans of the strings when the first one starts at an offset. -/
def spansFrom : Nat → List Entry → List (Span × Span)
  | _, [] => []
  | start, e :: rest =>
    let second := start + e.id.length + 1
    (⟨e.id.length, start⟩, ⟨e.text.length, second⟩) ::
      spansFrom (second + e.text.length + 1) rest

def tableSize (d : Draft) : Nat := spanSize * d.entries.length

/-- The image is header, id table, text table, strings. -/
def idTable (_ : Draft) : Nat := writtenHeader

def textTable (d : Draft) : Nat := d.idTable + d.tableSize

def stringsStart (d : Draft) : Nat := d.textTable + d.tableSize

def spans (d : Draft) : List (Span × Span) := spansFrom d.stringsStart d.entries

def header (d : Draft) : List Nat :=
  [magic, d.revision.toWord, d.entries.length, d.idTable, d.textTable, 0, 0]

def words (d : Draft) (values : List Nat) : List UInt8 := values.flatMap (d.order.bytes 4)

def table (d : Draft) (spans : List Span) : List UInt8 :=
  d.words (spans.flatMap fun s => [s.length, s.offset])

def strings (entries : List Entry) : List UInt8 :=
  entries.flatMap fun e => e.id ++ [0] ++ e.text ++ [0]

def bytes (d : Draft) : List UInt8 :=
  d.words d.header ++ d.table (d.spans.map Prod.fst) ++ d.table (d.spans.map Prod.snd) ++
    strings d.entries

end Draft
end MessageCatalog.Image
