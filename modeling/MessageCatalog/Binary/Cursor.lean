import MessageCatalog.Binary.ByteOrder

/-! Sequential reads of numbers and bytes from data in memory. The position may lie past the end. A
short numeric read moves to the end, a short raw read consumes what is left. -/
namespace MessageCatalog.Binary

structure Cursor where
  data : List UInt8
  position : Nat
  order : ByteOrder
  deriving DecidableEq, Repr

namespace Cursor

def ofData (data : List UInt8) (order : ByteOrder) : Cursor := ⟨data, 0, order⟩

/-- At most `count` of the next bytes. -/
def ahead (c : Cursor) (count : Nat) : List UInt8 := (c.data.drop c.position).take count

def unsigned (c : Cursor) (width : Nat) : Option Nat × Cursor :=
  let bytes := c.ahead width
  if bytes.length = width then
    (some (c.order.value bytes), { c with position := c.position + width })
  else (none, { c with position := c.data.length })

/-- Two's complement. -/
def signed (c : Cursor) (width : Nat) : Option Int × Cursor :=
  let (read, after) := c.unsigned width
  (read.map fun n => (n : Int).bmod (valueCount width), after)

def float32 (c : Cursor) : Option Float32 × Cursor :=
  let (read, after) := c.unsigned 4
  (read.map fun n => Float32.ofBits (UInt32.ofNat n), after)

def float64 (c : Cursor) : Option Float × Cursor :=
  let (read, after) := c.unsigned 8
  (read.map fun n => Float.ofBits (UInt64.ofNat n), after)

def bytes (c : Cursor) (count : Nat) : Option (List UInt8) × Cursor :=
  let taken := c.ahead count
  let after := { c with position := c.position + taken.length }
  if taken.length = count then (some taken, after) else (none, after)

def seek (c : Cursor) (position : Nat) : Cursor := { c with position := position }

def withOrder (c : Cursor) (order : ByteOrder) : Cursor := { c with order := order }

end Cursor
end MessageCatalog.Binary
