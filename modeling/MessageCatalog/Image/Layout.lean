import MessageCatalog.Binary.ByteOrder

/-! The layout of a catalog image: header words, two tables of spans, and strings. Bytes are lists,
which proofs can take apart. -/
namespace MessageCatalog.Image

/-- Identifies an image and its byte order. -/
def magic : Nat := 0x950412DE

/-- Bytes of the header that a reader requires. -/
def minimalHeader : Nat := 20

/-- A written header adds an empty hash table. -/
def writtenHeader : Nat := 28

def spanSize : Nat := 8

def supportedMajor : Nat := 1

/-- Undecoded strings: an id with optional context, and forms separated by NUL. -/
structure Entry where
  id : List UInt8
  text : List UInt8
  deriving DecidableEq, Repr

structure Span where
  length : Nat
  offset : Nat
  deriving DecidableEq, Repr

def swapped (word : Nat) : Nat := Binary.ByteOrder.big.value (Binary.ByteOrder.little.bytes 4 word)

structure Revision where
  major : Nat
  minor : Nat
  deriving DecidableEq, Repr

namespace Revision

/-- The major number is the upper half. -/
def ofWord (w : Nat) : Revision := ⟨w / 0x10000, w % 0x10000⟩

def toWord (r : Revision) : Nat := r.major * 0x10000 + r.minor

end Revision
end MessageCatalog.Image
