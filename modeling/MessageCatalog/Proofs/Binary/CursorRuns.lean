import Mathlib.Algebra.BigOperators.Intervals
import Mathlib.Algebra.BigOperators.Ring.Finset
import MessageCatalog.Binary.Cursor

/-! Equal calls on equal data in either byte order. Success, positions and raw bytes do not depend
on the order, and each number is the sum of its bytes weighted by position. -/
namespace MessageCatalog.Binary

inductive Width where
  | two | four | eight
  deriving DecidableEq, Repr

def Width.size : Width → Nat
  | two => 2
  | four => 4
  | eight => 8

inductive Call where
  | unsigned (width : Width)
  | signed (width : Width)
  | float32
  | float64
  | bytes (count : Nat)
  | seek (position : Nat)
  deriving DecidableEq, Repr

inductive Reply where
  | number (read : Option Int)
  | float32 (read : Option Float32)
  | float64 (read : Option Float)
  | bytes (read : Option (List UInt8))
  | moved

def Reply.succeeds : Reply → Bool
  | number read => read.isSome
  | float32 read => read.isSome
  | float64 read => read.isSome
  | bytes read => read.isSome
  | moved => true

structure Exchange where
  start : Nat
  call : Call
  reply : Reply
  finish : Nat

namespace Cursor

def perform (c : Cursor) : Call → Reply × Cursor
  | .unsigned width =>
    let (read, after) := c.unsigned width.size
    (.number (read.map Int.ofNat), after)
  | .signed width =>
    let (read, after) := c.signed width.size
    (.number read, after)
  | .float32 =>
    let (read, after) := c.float32
    (.float32 read, after)
  | .float64 =>
    let (read, after) := c.float64
    (.float64 read, after)
  | .bytes count =>
    let (read, after) := c.bytes count
    (.bytes read, after)
  | .seek position => (.moved, c.seek position)

def exchange (c : Cursor) (call : Call) : Exchange :=
  ⟨c.position, call, (c.perform call).1, (c.perform call).2.position⟩

def exchanges : Cursor → List Call → List Exchange
  | _, [] => []
  | c, call :: calls => c.exchange call :: (c.perform call).2.exchanges calls

end Cursor

/-- Equal calls, positions and success, and equal raw bytes. -/
structure Exchange.Alike (a b : Exchange) : Prop where
  call : a.call = b.call
  start : a.start = b.start
  finish : a.finish = b.finish
  succeeds : a.reply.succeeds = b.reply.succeeds
  bytes : ∀ count, a.call = .bytes count → a.reply = b.reply

def ByteOrder.weight : ByteOrder → (width index : Nat) → Nat
  | little, _, index => 256 ^ index
  | big, width, index => 256 ^ (width - 1 - index)

def spelledAt (order : ByteOrder) (data : List UInt8) (offset width : Nat) : Nat :=
  ∑ i ∈ Finset.range width, (data.getD (offset + i) 0).toNat * order.weight width i

def spelledAt? (order : ByteOrder) (data : List UInt8) (offset width : Nat) : Option Nat :=
  if offset + width ≤ data.length then some (spelledAt order data offset width) else none

/-- The upper half of the range is negative. -/
def twosComplement (width n : Nat) : Int :=
  if 2 * n < 256 ^ width then n else n - 256 ^ width

/-- Numbers are read exactly where all their bytes are present, with the value that these spell. -/
structure Exchange.Spelled (order : ByteOrder) (data : List UInt8) (x : Exchange) : Prop where
  unsigned : ∀ width, x.call = .unsigned width →
    x.reply = .number ((spelledAt? order data x.start width.size).map Int.ofNat)
  signed : ∀ width, x.call = .signed width →
    x.reply = .number ((spelledAt? order data x.start width.size).map (twosComplement width.size))

section Values

theorem valueCount_eq (width : Nat) : valueCount width = 256 ^ width := by
  induction width with
  | zero => rfl
  | succ width ih => rw [valueCount, ih, Nat.pow_succ, Nat.mul_comm]

theorem littleValue_eq_sum (bytes : List UInt8) :
    littleValue bytes = ∑ i ∈ Finset.range bytes.length, (bytes.getD i 0).toNat * 256 ^ i := by
  induction bytes with
  | nil => rfl
  | cons b rest ih =>
    rw [littleValue, ih, List.length_cons, Finset.sum_range_succ', Finset.mul_sum]
    simp [Nat.pow_succ, Nat.add_comm, Nat.mul_comm, Nat.mul_assoc]

theorem ByteOrder.value_eq_sum (o : ByteOrder) (bytes : List UInt8) :
    o.value bytes =
      ∑ i ∈ Finset.range bytes.length, (bytes.getD i 0).toNat * o.weight bytes.length i := by
  cases o with
  | little => exact littleValue_eq_sum bytes
  | big =>
    rw [value, littleValue_eq_sum, List.length_reverse, ← Finset.sum_range_reflect]
    refine Finset.sum_congr rfl fun i member => ?_
    have inside := Finset.mem_range.1 member
    have mirrored : bytes.reverse[bytes.length - 1 - i]? = bytes[i]? := by
      rw [List.getElem?_reverse (by omega)]
      congr 1
      omega
    rw [List.getD_eq_getElem?_getD, List.getD_eq_getElem?_getD, mirrored, weight]

theorem bmod_eq_twosComplement {width n : Nat} (positive : 0 < width) (fits : n < valueCount width) :
    (n : Int).bmod (valueCount width) = twosComplement width n := by
  have even : 2 ∣ valueCount width := by
    cases width with
    | zero => cases positive
    | succ width => exact ⟨128 * valueCount width, by rw [valueCount]; omega⟩
  have least : (n : Int) % (valueCount width : Int) = n := Int.emod_eq_of_lt (by omega) (by omega)
  have power : (256 : Int) ^ width = valueCount width := by simp [valueCount_eq]
  rw [Int.bmod_def, least, twosComplement, power, ← valueCount_eq]
  split <;> split <;> omega

theorem Width.size_pos (width : Width) : 0 < width.size := by cases width <;> decide

end Values

section Runs

variable {c : Cursor} {order : ByteOrder} {call : Call} {width count : Nat}

namespace Cursor

theorem unsigned_of_complete (complete : (c.ahead width).length = width) :
    c.unsigned width = (some (c.order.value (c.ahead width)), c.seek (c.position + width)) :=
  if_pos complete

theorem unsigned_of_short (short : (c.ahead width).length ≠ width) :
    c.unsigned width = (none, c.seek c.data.length) :=
  if_neg short

theorem signed_eq (c : Cursor) (width : Nat) :
    c.signed width =
      ((c.unsigned width).1.map fun n : Nat => (n : Int).bmod (valueCount width),
        (c.unsigned width).2) := by
  rw [signed]
  obtain ⟨read, after⟩ := c.unsigned width
  cases read <;> rfl

theorem bytes_eq (c : Cursor) (count : Nat) :
    c.bytes count =
      (if (c.ahead count).length = count then some (c.ahead count) else none,
        c.seek (c.position + (c.ahead count).length)) := by
  rw [bytes]
  split <;> rfl

/-- Success and end position of a numeric read do not depend on the byte order. -/
theorem unsigned_withOrder :
    ((c.withOrder order).unsigned width).1.isSome = (c.unsigned width).1.isSome ∧
      ((c.withOrder order).unsigned width).2 = (c.unsigned width).2.withOrder order := by
  by_cases complete : (c.ahead width).length = width
  · have ordered : ((c.withOrder order).ahead width).length = width := complete
    rw [unsigned_of_complete complete, unsigned_of_complete ordered]
    exact ⟨rfl, rfl⟩
  · have ordered : ((c.withOrder order).ahead width).length ≠ width := complete
    rw [unsigned_of_short complete, unsigned_of_short ordered]
    exact ⟨rfl, rfl⟩

/-- Raw reads do not depend on the byte order. -/
theorem bytes_withOrder :
    (c.withOrder order).bytes count = ((c.bytes count).1, (c.bytes count).2.withOrder order) := by
  rw [bytes_eq, bytes_eq]
  rfl

theorem perform_withOrder :
    ((c.withOrder order).perform call).1.succeeds = (c.perform call).1.succeeds ∧
      ((c.withOrder order).perform call).2 = (c.perform call).2.withOrder order := by
  cases call with
  | unsigned | signed | float32 | float64 =>
    simp [perform, signed_eq, float32, float64, Reply.succeeds, unsigned_withOrder]
  | bytes count => simp [perform, Reply.succeeds, bytes_withOrder]
  | seek position => exact ⟨rfl, rfl⟩

theorem exchange_alike (c : Cursor) (order : ByteOrder) (call : Call) :
    ((c.withOrder order).exchange call).Alike (c.exchange call) where
  call := rfl
  start := rfl
  finish := by rw [exchange, perform_withOrder.2]; rfl
  succeeds := perform_withOrder.1
  bytes count h := by
    cases h
    simp [exchange, perform, bytes_withOrder]

theorem exchanges_alike (c : Cursor) (order : ByteOrder) (calls : List Call) :
    List.Forall₂ Exchange.Alike ((c.withOrder order).exchanges calls) (c.exchanges calls) := by
  induction calls generalizing c with
  | nil => exact .nil
  | cons call calls ih =>
    refine .cons (c.exchange_alike order call) ?_
    rw [perform_withOrder.2]
    exact ih _

theorem length_ahead_iff (positive : 0 < width) :
    (c.ahead width).length = width ↔ c.position + width ≤ c.data.length := by
  simp only [ahead, List.length_take, List.length_drop]
  omega

theorem value_ahead (complete : (c.ahead width).length = width) :
    c.order.value (c.ahead width) = spelledAt c.order c.data c.position width := by
  rw [ByteOrder.value_eq_sum, complete, spelledAt]
  refine Finset.sum_congr rfl fun i member => ?_
  simp [ahead, List.getElem?_drop, Finset.mem_range.1 member]

/-- Reading a number reads its raw bytes. -/
theorem unsigned_fst (positive : 0 < width) :
    (c.unsigned width).1 = spelledAt? c.order c.data c.position width := by
  rw [spelledAt?]
  by_cases complete : (c.ahead width).length = width
  · rw [unsigned_of_complete complete, if_pos ((length_ahead_iff positive).1 complete),
      value_ahead complete]
  · rw [unsigned_of_short complete, if_neg (complete ∘ (length_ahead_iff positive).2)]

theorem signed_fst (positive : 0 < width) :
    (c.signed width).1 =
      (spelledAt? c.order c.data c.position width).map (twosComplement width) := by
  rw [signed_eq, ← unsigned_fst positive]
  refine Option.map_congr fun n read => bmod_eq_twosComplement positive ?_
  by_cases complete : (c.ahead width).length = width
  · rw [unsigned_of_complete complete] at read
    obtain rfl := Option.some.inj read
    simpa [complete] using c.order.value_lt (c.ahead width)
  · rw [unsigned_of_short complete] at read
    cases read

/-- A call moves the position and nothing else. -/
theorem perform_moves (c : Cursor) (call : Call) : ∃ p, (c.perform call).2 = c.seek p := by
  have number (width : Nat) : ∃ p, (c.unsigned width).2 = c.seek p := by
    by_cases complete : (c.ahead width).length = width
    · exact ⟨_, congrArg Prod.snd (unsigned_of_complete complete)⟩
    · exact ⟨_, congrArg Prod.snd (unsigned_of_short complete)⟩
  cases call with
  | unsigned width => exact number width.size
  | signed width => simpa [perform, signed_eq] using number width.size
  | float32 => exact number 4
  | float64 => exact number 8
  | bytes count => exact ⟨_, congrArg Prod.snd (bytes_eq c count)⟩
  | seek position => exact ⟨position, rfl⟩

theorem spelled_exchange (c : Cursor) (call : Call) : (c.exchange call).Spelled c.order c.data where
  unsigned width h := by
    obtain rfl : call = .unsigned width := h
    simp [exchange, perform, unsigned_fst width.size_pos]
  signed width h := by
    obtain rfl : call = .signed width := h
    simp [exchange, perform, signed_fst width.size_pos]

theorem spelled_of_mem {x : Exchange} {calls : List Call} (h : x ∈ c.exchanges calls) :
    x.Spelled c.order c.data := by
  induction calls generalizing c with
  | nil => cases h
  | cons call calls ih =>
    rcases List.mem_cons.1 h with rfl | later
    · exact c.spelled_exchange call
    · obtain ⟨p, moved⟩ := c.perform_moves call
      rw [moved] at later
      have spelled := ih later
      exact spelled

/-- For all data and calls, both orders agree call for call except in the numbers; a number is read
exactly where all its bytes are present, with the value that these spell in the order of the
cursor. -/
theorem order_changes_numbers_only (data : List UInt8) (calls : List Call) :
    List.Forall₂ Exchange.Alike ((ofData data .little).exchanges calls)
      ((ofData data .big).exchanges calls) ∧
    ∀ order, ∀ x ∈ (ofData data order).exchanges calls, x.Spelled order data :=
  ⟨(ofData data .big).exchanges_alike .little calls, fun _ _ member => spelled_of_mem member⟩

/-- A short read moves to the end; a seek makes earlier bytes readable again. -/
theorem order_changes_numbers_only_short :
    let data : List UInt8 := [0x01, 0xFF, 0xFE]
    let calls : List Call := [.signed .two, .unsigned .two, .seek 1, .signed .two, .bytes 1]
    let x : Exchange := ⟨1, .signed .two, .number (some (-2)), 3⟩
    let y : Exchange := ⟨2, .unsigned .two, .number none, 3⟩
    (x ∈ (ofData data .big).exchanges calls ∧ x.Spelled .big data) ∧
    (y ∈ (ofData data .big).exchanges calls ∧ y.Spelled .big data) ∧
    List.Forall₂ Exchange.Alike ((ofData data .little).exchanges calls)
      ((ofData data .big).exchanges calls) := by
  intro data calls x y
  obtain ⟨alike, spelled⟩ := order_changes_numbers_only data calls
  have read : x ∈ (ofData data .big).exchanges calls := by
    refine List.mem_of_getElem? (i := 3) (congrArg some ?_)
    simp only [exchange, perform, x, Exchange.mk.injEq, Reply.number.injEq, true_and]
    decide +kernel
  have short : y ∈ (ofData data .big).exchanges calls := List.mem_of_getElem? (i := 1) rfl
  exact ⟨⟨read, spelled .big x read⟩, ⟨short, spelled .big y short⟩, alike⟩

end Cursor
end Runs
end MessageCatalog.Binary
