import MessageCatalog.Image.Contents
import MessageCatalog.Proofs.Image.Addressed

/-! Accepted images and the problems of all other data, in the order of the header: length, magic
word, revision, tables and strings. Decoding and options are irrelevant. -/
namespace MessageCatalog.Image

open Binary Charset

namespace Frame

theorem mapM_entry (data : List UInt8) (n : Nat) (ids texts : Nat → Span) :
    (((List.range n).map ids).zip ((List.range n).map texts)).mapM
        (fun (id, text) => entry data id text) =
      if ∀ i < n, (ids i).Within data ∧ (texts i).Within data then
        .ok ((List.range n).map fun i => ⟨(ids i).cut data, (texts i).cut data⟩)
      else .error .endOfData := by
  have guarded := mapM_guarded (p := fun i => (ids i).Within data ∧ (texts i).Within data)
    (fun i => (⟨(ids i).cut data, (texts i).cut data⟩ : Entry)) Problem.endOfData (List.range n)
  simp only [List.mem_range] at guarded
  rw [List.zip_map', List.mapM_map, ← guarded]
  rfl

section Header

variable {order : ByteOrder} {data : List UInt8}

/-- The first four bytes spell a number exactly if the first word is that number. -/
theorem take_eq_bytes_iff {n : Nat} (complete : 4 ≤ data.length) (fits : n < valueCount 4) :
    data.take 4 = order.bytes 4 n ↔ wordAt order data 0 = n := by
  rw [wordAt, List.drop_zero]
  constructor
  · intro same
    rw [same, order.value_bytes, Nat.mod_eq_of_lt fits]
  · intro same
    have spelled := order.bytes_value (data.take 4)
    rw [List.length_take, Nat.min_eq_left complete, same] at spelled
    exact spelled.symm

theorem orderOf_eq_ok (start : data.take 4 = order.bytes 4 magic) : orderOf data = .ok order := by
  have first (o : ByteOrder) : wordAt o data 0 = o.value (order.bytes 4 magic) := by
    rw [wordAt, List.drop_zero, start]
  rw [orderOf, first, first]
  cases order with
  | little => rw [if_pos (by decide)]
  | big => rw [if_neg (by decide), if_pos (by decide)]

theorem orderOf_eq_error (complete : 4 ≤ data.length)
    (other : ∀ o : ByteOrder, data.take 4 ≠ o.bytes 4 magic) :
    orderOf data = .error (.invalidMagic (wordAt .little data 0)) := by
  have differs (o : ByteOrder) : wordAt o data 0 ≠ magic := fun same =>
    other o ((take_eq_bytes_iff complete (by decide)).2 same)
  rw [orderOf, if_neg (differs _), if_neg (differs _)]

end Header

end Frame

section Tables

variable (order : ByteOrder) (data : List UInt8)

def entryCount : Nat := wordAt order data 8

def idSpan (i : Nat) : Span := Frame.spanAt order data (wordAt order data 12 + spanSize * i)

def textSpan (i : Nat) : Span := Frame.spanAt order data (wordAt order data 16 + spanSize * i)

/-- Tables and strings lie within the data. -/
structure Complete : Prop where
  ids : wordAt order data 12 + 8 * entryCount order data ≤ data.length
  texts : wordAt order data 16 + 8 * entryCount order data ≤ data.length
  strings : ∀ i < entryCount order data,
    (idSpan order data i).Within data ∧ (textSpan order data i).Within data

instance : Decidable (Complete order data) :=
  decidable_of_iff
    (wordAt order data 12 + 8 * entryCount order data ≤ data.length ∧
      wordAt order data 16 + 8 * entryCount order data ≤ data.length ∧
      ∀ i < entryCount order data,
        (idSpan order data i).Within data ∧ (textSpan order data i).Within data)
    ⟨fun ⟨ids, texts, strings⟩ => ⟨ids, texts, strings⟩, fun c => ⟨c.ids, c.texts, c.strings⟩⟩

def entriesIn : List Entry :=
  (List.range (entryCount order data)).map fun i =>
    ⟨(idSpan order data i).cut data, (textSpan order data i).cut data⟩

variable {order data}

/-- For a supported revision, tables and strings alone decide. -/
theorem inOrder_eq (supported : (Revision.ofWord (wordAt order data 4)).major ≤ 1) :
    Frame.inOrder order data =
      if Complete order data then
        .ok ⟨order, Revision.ofWord (wordAt order data 4), entriesIn order data⟩
      else .error .endOfData := by
  have entries := Frame.mapM_entry data (entryCount order data) (idSpan order data)
    (textSpan order data)
  rw [Frame.inOrder]
  refine (if_neg (Nat.not_lt.2 supported)).trans ?_
  by_cases ids : wordAt order data 12 + 8 * entryCount order data ≤ data.length
  · refine (bind_of_ok (if_pos ids)).trans ?_
    by_cases texts : wordAt order data 16 + 8 * entryCount order data ≤ data.length
    · refine (bind_of_ok (if_pos texts)).trans ?_
      by_cases strings : ∀ i < entryCount order data,
          (idSpan order data i).Within data ∧ (textSpan order data i).Within data
      · have complete : Complete order data := ⟨ids, texts, strings⟩
        rw [if_pos strings] at entries
        rw [if_pos complete]
        exact bind_of_ok entries
      · have incomplete : ¬Complete order data := fun complete => strings complete.strings
        rw [if_neg strings] at entries
        rw [if_neg incomplete]
        exact bind_of_error entries
    · have incomplete : ¬Complete order data := fun complete => texts complete.texts
      rw [if_neg incomplete]
      exact bind_of_error (if_neg texts)
  · have incomplete : ¬Complete order data := fun complete => ids complete.ids
    rw [if_neg incomplete]
    exact bind_of_error (if_neg ids)

end Tables

section Reading

variable {E : Type} [Encodings E]

inductive Ends (options : LoadOptions E) (data : List UInt8) : Except Problem (Reading E) → Prop
  | short : Ends options data (.error .endOfData)
  | foreign {magic : Nat} : Ends options data (.error (.invalidMagic magic))
  | newer {revision : Revision} :
      Ends options data (.error (.unsupportedRevision revision.major revision.minor))
  | accepted {order : ByteOrder} {revision : Revision} :
      Ends options data
        (.ok ⟨order, revision, Contents.ofEntries options (entriesIn order data)⟩)

theorem ends_read (options : LoadOptions E) (data : List UInt8) :
    Ends options data (read options data) := by
  rw [read, Frame.ofBytes_eq]
  split
  · exact .short
  · rw [Frame.orderOf]
    have inOrder (order : ByteOrder) : Ends options data (do
        let frame ← Frame.inOrder order data
        .ok ⟨frame.order, frame.revision, Contents.ofEntries options frame.entries⟩) := by
      by_cases supported : (Revision.ofWord (wordAt order data 4)).major ≤ 1
      · rw [inOrder_eq supported]
        split
        · exact .accepted
        · exact .short
      · have refused : Frame.inOrder order data = .error _ := if_pos (Nat.lt_of_not_le supported)
        rw [refused]
        exact .newer
    split
    · exact inOrder .little
    · split
      · exact inOrder .big
      · exact .foreign

end Reading
end MessageCatalog.Image
