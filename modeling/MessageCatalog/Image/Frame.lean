import MessageCatalog.Binary.Cursor
import MessageCatalog.Image.Layout
import MessageCatalog.Problem

/-! Splitting a catalog image into undecoded strings with a cursor. Acceptance depends on the bytes
alone. -/
namespace MessageCatalog.Image

open Binary

structure Frame where
  order : ByteOrder
  revision : Revision
  entries : List Entry
  deriving DecidableEq, Repr

abbrev Scan := StateT Cursor (Except Problem)

namespace Scan

/-- A short read ends the scan. -/
def complete {α : Type} (read : Cursor → Option α × Cursor) : Scan α := fun c =>
  match read c with
  | (some a, after) => .ok (a, after)
  | (none, _) => .error .endOfData

def seek (position : Nat) : Scan Unit := modify (·.seek position)

def word : Scan Nat := complete (·.unsigned 4)

def span : Scan Span := do
  let length ← word
  let offset ← word
  return ⟨length, offset⟩

def spans : Nat → Scan (List Span)
  | 0 => return []
  | count + 1 => do
    let first ← span
    let rest ← spans count
    return first :: rest

/-- The end of the table is checked before its spans are read. -/
def table (offset count : Nat) : Scan (List Span) := do
  if (← get).data.length < offset + spanSize * count then throw .endOfData
  seek offset
  spans count

def string (s : Span) : Scan (List UInt8) := do
  seek s.offset
  complete (·.bytes s.length)

def entry (id text : Span) : Scan Entry := do
  let id ← string id
  let text ← string text
  return ⟨id, text⟩

def body (order : ByteOrder) : Scan Frame := do
  let revision := Revision.ofWord (← word)
  if supportedMajor < revision.major then
    throw (.unsupportedRevision revision.major revision.minor)
  let count ← word
  let idTable ← word
  let textTable ← word
  let ids ← table idTable count
  let texts ← table textTable count
  let entries ← (ids.zip texts).mapM fun (id, text) => entry id text
  return ⟨order, revision, entries⟩

def orderOf (word : Nat) : Except Problem ByteOrder :=
  if word = magic then .ok .little
  else if swapped word = magic then .ok .big
  else .error (.invalidMagic word)

def frame : Scan Frame := do
  let order ← orderOf (← word)
  modify (·.withOrder order)
  body order

end Scan

def Frame.ofBytes (data : List UInt8) : Except Problem Frame :=
  if data.length < minimalHeader then .error .endOfData
  else Scan.frame.run' (Cursor.ofData data .little)

end MessageCatalog.Image
