import MessageCatalog.Header.Fields
import MessageCatalog.Header.MediaType
import MessageCatalog.Image.Frame
import MessageCatalog.LoadOptions
import MessageCatalog.Messages

/-! The contents of a catalog image. An entry with an empty id is a header, and its charset applies
to the entries after it. An unresolved charset is a warning. -/
namespace MessageCatalog.Image

/-- The accumulated contents and the encoding of the next entry. -/
structure Contents (E : Type) where
  messages : Messages
  fields : Header.Fields
  encoding : E
  warnings : List Problem
  deriving DecidableEq

namespace Contents

variable {E : Type}

def start (encoding : E) : Contents E := ⟨∅, Table.empty, encoding, []⟩

def warn (c : Contents E) (p : Problem) : Contents E := { c with warnings := c.warnings ++ [p] }

variable [Charset.Encodings E]

def followCharset (c : Contents E) : Contents E :=
  match c.fields.value? "Content-Type" with
  | none => c
  | some value =>
    match Header.MediaType.parse? value with
    | none => c.warn (.unresolvedCharset value)
    | some type =>
      match type.charset? with
      | none => c
      | some label =>
        match Charset.Encodings.ofLabel? label with
        | none => c.warn (.unresolvedCharset label)
        | some encoding => { c with encoding := encoding }

def addHeader (c : Contents E) (detectCharset : Bool) (text : List Char) : Contents E :=
  let c := { c with fields := c.fields.extend (Header.Fields.parse text) }
  if detectCharset then c.followCharset else c

/-- The key is the id up to its first mark. -/
def addEntry (detectCharset : Bool) (c : Contents E) (e : Entry) : Contents E :=
  let key := (Charset.Encodings.decode c.encoding e.id).takeWhile (· != formMark)
  let forms := (Charset.Encodings.decode c.encoding e.text).splitOn formMark
  if key.isEmpty then c.addHeader detectCharset (forms.headD [])
  else { c with messages := c.messages.insert (String.ofList key) (forms.map String.ofList) }

def ofEntries (options : LoadOptions E) (entries : List Entry) : Contents E :=
  entries.foldl (addEntry options.detectCharset) (start options.encoding)

end Contents

structure Reading (E : Type) where
  order : Binary.ByteOrder
  revision : Revision
  contents : Contents E
  deriving DecidableEq

def read {E : Type} [Charset.Encodings E] (options : LoadOptions E) (data : List UInt8) :
    Except Problem (Reading E) := do
  let frame ← Frame.ofBytes data
  .ok ⟨frame.order, frame.revision, Contents.ofEntries options frame.entries⟩

end MessageCatalog.Image
