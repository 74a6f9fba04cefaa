/-! Whole numbers as bytes, the low byte first or the high byte first. -/
namespace MessageCatalog.Binary

inductive ByteOrder where
  | little | big
  deriving DecidableEq, Repr

def littleValue : List UInt8 → Nat
  | [] => 0
  | b :: rest => b.toNat + 256 * littleValue rest

/-- The number with these base-256 digits, lowest first. -/
def littleBytes : Nat → Nat → List UInt8
  | 0, _ => []
  | width + 1, n => UInt8.ofNat n :: littleBytes width (n / 256)

def valueCount : Nat → Nat
  | 0 => 1
  | width + 1 => 256 * valueCount width

namespace ByteOrder

def value : ByteOrder → List UInt8 → Nat
  | little, bytes => littleValue bytes
  | big, bytes => littleValue bytes.reverse

def bytes : ByteOrder → (width n : Nat) → List UInt8
  | little, width, n => littleBytes width n
  | big, width, n => (littleBytes width n).reverse

end ByteOrder

@[simp] theorem length_littleBytes (width n : Nat) : (littleBytes width n).length = width := by
  induction width generalizing n with
  | zero => rfl
  | succ width ih => simp [littleBytes, ih]

theorem littleValue_lt (bytes : List UInt8) : littleValue bytes < valueCount bytes.length := by
  induction bytes with
  | nil => simp [littleValue, valueCount]
  | cons b rest ih =>
    have := b.toNat_lt
    simp only [littleValue, List.length_cons, valueCount]
    omega

theorem littleValue_littleBytes (width n : Nat) :
    littleValue (littleBytes width n) = n % valueCount width := by
  induction width generalizing n with
  | zero => simp [littleBytes, littleValue, valueCount, Nat.mod_one]
  | succ width ih =>
    simp [littleBytes, littleValue, valueCount, ih, Nat.mod_mul]

theorem littleBytes_littleValue (bytes : List UInt8) :
    littleBytes bytes.length (littleValue bytes) = bytes := by
  induction bytes with
  | nil => rfl
  | cons b rest ih =>
    have low : UInt8.ofNat (b.toNat + 256 * littleValue rest) = b := by
      rw [← UInt8.toNat_inj, UInt8.toNat_ofNat']
      have := b.toNat_lt
      omega
    have high : (b.toNat + 256 * littleValue rest) / 256 = littleValue rest := by
      have := b.toNat_lt
      omega
    rw [List.length_cons, littleValue, littleBytes, low, high, ih]

namespace ByteOrder

@[simp] theorem length_bytes (o : ByteOrder) (width n : Nat) :
    (o.bytes width n).length = width := by
  cases o <;> simp [bytes]

theorem value_lt (o : ByteOrder) (bs : List UInt8) : o.value bs < valueCount bs.length := by
  cases o with
  | little => exact littleValue_lt bs
  | big => simpa [value] using littleValue_lt bs.reverse

theorem value_bytes (o : ByteOrder) (width n : Nat) :
    o.value (o.bytes width n) = n % valueCount width := by
  cases o <;> simp [value, bytes, littleValue_littleBytes]

theorem bytes_value (o : ByteOrder) (bs : List UInt8) : o.bytes bs.length (o.value bs) = bs := by
  cases o with
  | little => exact littleBytes_littleValue bs
  | big =>
    rw [value, bytes, ← List.length_reverse, littleBytes_littleValue, List.reverse_reverse]

end ByteOrder
end MessageCatalog.Binary
