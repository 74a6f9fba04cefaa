import MessageCatalog.Proofs.Image.Framing

/-! Written images as seen by any reader: header, tables and NUL-terminated strings are contiguous
up to the end. If the image fits into words, so does every count on the way. -/
namespace MessageCatalog.Image

open Binary

/-- Strings ended by NUL, contiguous from an offset to the end. -/
inductive Fills (data : List UInt8) : Nat → List Span → List (List UInt8) → Prop
  | done : Fills data data.length [] []
  | string {s : Span} {bytes : List UInt8} {spans : List Span} {strings : List (List UInt8)} :
      s.length = bytes.length → s.cut data = bytes → data[s.offset + s.length]? = some 0 →
      Fills data (s.offset + s.length + 1) spans strings →
      Fills data s.offset (s :: spans) (bytes :: strings)

/-- Spans in the order id, text, id, text. -/
def stringSpans (order : ByteOrder) (data : List UInt8) : List Span :=
  ((List.range (entryCount order data)).map fun i =>
    (idSpan order data i, textSpan order data i)).flatMap fun s => [s.1, s.2]

def stringsOf (entries : List Entry) : List (List UInt8) := entries.flatMap fun e => [e.id, e.text]

/-- Header, tables and strings, contiguous. -/
structure LaidOut (order : ByteOrder) (data : List UInt8) (entries : List Entry) : Prop where
  marked : Frame.orderOf data = .ok order
  count : entryCount order data = entries.length
  idTable : wordAt order data 12 = 28
  textTable : wordAt order data 16 = 28 + 8 * entries.length
  strings : Fills data (28 + 16 * entries.length) (stringSpans order data) (stringsOf entries)
  inside : ∀ s ∈ stringSpans order data,
    28 + 16 * entries.length ≤ s.offset ∧ s.offset + s.length < data.length
  bare : entries = [] → data.length = 28

def word? (n : Nat) : Option Nat := if n < 0x100000000 then some n else none

namespace Draft

def spansInWords? (start : Nat) : Nat → List Entry → Option (List (Span × Span))
  | _, [] => some []
  | size, e :: rest => do
    let idLength ← word? e.id.length
    let idOffset ← word? (start + (← word? size))
    let size := size + e.id.length + 1
    let textLength ← word? e.text.length
    let textOffset ← word? (start + (← word? size))
    let others ← spansInWords? start (size + e.text.length + 1) rest
    some ((⟨idLength, idOffset⟩, ⟨textLength, textOffset⟩) :: others)

/-- The image if all lengths and offsets fit in words. -/
def bytesInWords? (d : Draft) : Option (List UInt8) := do
  let count ← word? d.entries.length
  let tableSize ← word? (spanSize * count)
  let textTable ← word? (writtenHeader + tableSize)
  let stringsStart ← word? (textTable + tableSize)
  let spans ← spansInWords? stringsStart 0 d.entries
  some (d.words [magic, d.revision.toWord, count, writtenHeader, textTable, 0, 0] ++
    d.table (spans.map Prod.fst) ++ d.table (spans.map Prod.snd) ++ strings d.entries)

end Draft

section Filling

variable {data : List UInt8} {start : Nat} {spans : List Span} {strings : List (List UInt8)}

theorem Fills.le_length (h : Fills data start spans strings) : start ≤ data.length := by
  induction h with
  | done => exact Nat.le_refl _
  | string _ _ _ _ ih => omega

/-- No string begins before the first one or reaches the end. -/
theorem Fills.bounds (h : Fills data start spans strings) :
    ∀ s ∈ spans, start ≤ s.offset ∧ s.offset + s.length < data.length := by
  induction h with
  | done => simp
  | string _ _ _ rest ih =>
    have reaches := rest.le_length
    refine List.forall_mem_cons.2 ⟨⟨Nat.le_refl _, by omega⟩, fun s member => ?_⟩
    have bounds := ih s member
    omega

theorem Fills.cons (pre bytes rest : List UInt8) (placed : data = pre ++ (bytes ++ ([0] ++ rest)))
    (length : pre.length = start) (h : Fills data (start + bytes.length + 1) spans strings) :
    Fills data start (⟨bytes.length, start⟩ :: spans) (bytes :: strings) := by
  refine .string (s := ⟨bytes.length, start⟩) rfl ?_ ?_ h
  · rw [Span.cut, placed, ← length, List.drop_left, List.take_left' rfl]
  · rw [placed, ← length, ← List.append_assoc, ← List.length_append,
      List.getElem?_append_right (Nat.le_refl _), Nat.sub_self]
    rfl

theorem fills_strings (pre : List UInt8) (entries : List Entry) :
    Fills (pre ++ Draft.strings entries) pre.length
      ((Draft.spansFrom pre.length entries).flatMap fun s => [s.1, s.2]) (stringsOf entries) := by
  induction entries generalizing pre with
  | nil =>
    have data : pre ++ Draft.strings [] = pre := List.append_nil pre
    rw [data]
    exact .done
  | cons e entries ih =>
    have others := ih (pre ++ e.id ++ [0] ++ e.text ++ [0])
    have data : pre ++ e.id ++ [0] ++ e.text ++ [0] ++ Draft.strings entries =
        pre ++ Draft.strings (e :: entries) := by
      simp only [Draft.strings, List.flatMap_cons, List.append_assoc]
    simp only [data, List.length_append, List.length_singleton] at others
    refine .cons pre e.id (e.text ++ ([0] ++ Draft.strings entries)) ?_ rfl ?_
    · simp only [← data, List.append_assoc]
    · refine .cons (pre ++ e.id ++ [0]) e.text (Draft.strings entries) ?_ ?_ others
      · simp only [← data, List.append_assoc]
      · simp only [List.length_append, List.length_singleton]

theorem spans_of_ok {order : ByteOrder} {offset count : Nat} {found : List Span}
    (h : Frame.spans order data offset count = .ok found) :
    ((List.range count).map fun i => Frame.spanAt order data (offset + spanSize * i)) = found := by
  rw [Frame.spans] at h
  split at h
  · exact Except.ok.inj h
  · cases h

/-- The tables of an image that fits into words hold the spans counted by the writer. -/
theorem stringSpans_bytes {d : Draft} (fits : d.bytes.length < valueCount 4) :
    stringSpans d.order d.bytes = d.spans.flatMap fun s => [s.1, s.2] := by
  have fit := Draft.spans_fit fits
  have ids : (List.range d.entries.length).map (idSpan d.order d.bytes) = d.spans.map Prod.fst := by
    rw [← spans_of_ok (Frame.spans_ids fun s member => (fit s member).1)]
    exact List.map_congr_left fun i _ => by rw [idSpan, d.wordAt_idTable]
  have texts : (List.range d.entries.length).map (textSpan d.order d.bytes) =
      d.spans.map Prod.snd := by
    rw [← spans_of_ok (Frame.spans_texts fun s member => (fit s member).2)]
    exact List.map_congr_left fun i _ => by rw [textSpan, Draft.wordAt_textTable fits]
  have pairs : (List.range d.entries.length).map (fun i =>
      (idSpan d.order d.bytes i, textSpan d.order d.bytes i)) = d.spans := by
    rw [← List.zip_map', ids, texts]
    exact (List.zip_of_prod rfl rfl).symm
  rw [stringSpans, entryCount, Draft.wordAt_count fits, pairs]

end Filling

section Words

variable {entries : List Entry}

theorem word?_eq_some {n : Nat} (h : n < 0x100000000) : word? n = some n := if_pos h

namespace Draft

theorem spansInWords?_eq {start size : Nat}
    (fits : start + size + (strings entries).length < 0x100000000) :
    spansInWords? start size entries = some (spansFrom (start + size) entries) := by
  induction entries generalizing size with
  | nil => rfl
  | cons e entries ih =>
    rw [length_strings_cons] at fits
    have others : spansInWords? start (size + e.id.length + 1 + e.text.length + 1) entries = _ :=
      ih (by omega)
    have second : start + (size + e.id.length + 1) = start + size + e.id.length + 1 := by omega
    have third : start + (size + e.id.length + 1 + e.text.length + 1) =
        start + size + e.id.length + 1 + e.text.length + 1 := by omega
    rw [third] at others
    simp only [spansInWords?, spansFrom, others, second,
      word?_eq_some (n := e.id.length) (by omega), word?_eq_some (n := size) (by omega),
      word?_eq_some (n := start + size) (by omega), word?_eq_some (n := e.text.length) (by omega),
      word?_eq_some (n := size + e.id.length + 1) (by omega),
      word?_eq_some (n := start + size + e.id.length + 1) (by omega), Option.bind_eq_bind,
      Option.bind_some]

theorem bytesInWords?_eq {d : Draft} (fits : d.bytes.length < 0x100000000) :
    d.bytesInWords? = some d.bytes := by
  have total := d.length_bytes
  have start := d.stringsStart_eq
  have placed : spansInWords? d.stringsStart 0 d.entries = some d.spans :=
    spansInWords?_eq (by omega)
  have table : d.textTable = 28 + 8 * d.entries.length := rfl
  have size : spanSize * d.entries.length = d.tableSize := rfl
  have eight : d.tableSize = 8 * d.entries.length := rfl
  have first : writtenHeader + d.tableSize = d.textTable := rfl
  have second : d.textTable + d.tableSize = d.stringsStart := rfl
  simp only [bytesInWords?, word?_eq_some (n := d.entries.length) (by omega), size, first, second,
    word?_eq_some (n := d.tableSize) (by omega), word?_eq_some (n := d.textTable) (by omega),
    word?_eq_some (n := d.stringsStart) (by omega), placed, Option.bind_eq_bind, Option.bind_some]
  rfl

end Draft
end Words

namespace Draft

variable {d : Draft}

theorem fills_bytes (fits : d.bytes.length < valueCount 4) :
    Fills d.bytes (28 + 16 * d.entries.length) (stringSpans d.order d.bytes)
      (stringsOf d.entries) := by
  have written := fills_strings
    (d.words d.header ++ d.table (d.spans.map Prod.fst) ++ d.table (d.spans.map Prod.snd)) d.entries
  rw [d.length_beforeStrings] at written
  rw [stringSpans_bytes fits, ← d.stringsStart_eq]
  exact written

/-- Every image that fits into words is laid out contiguously, and the counts in words lose
nothing. -/
theorem bytes_laidOut (fits : d.bytes.length < 0x100000000) :
    LaidOut d.order d.bytes d.entries ∧ d.bytesInWords? = some d.bytes := by
  have filled := fills_bytes fits
  refine ⟨?_, bytesInWords?_eq fits⟩
  exact {
    marked := d.orderOf_bytes
    count := wordAt_count fits
    idTable := d.wordAt_idTable
    textTable := wordAt_textTable fits
    strings := filled
    inside := filled.bounds
    bare := fun none => by rw [d.length_bytes, d.stringsStart_eq, none]; rfl }

/-- Two entries in the other byte order, one with an inner zero byte and one without text. -/
theorem bytes_laidOut_two :
    let d : Draft := ⟨.big, ⟨1, 0⟩, [⟨[97, 0, 98], [99]⟩, ⟨[100], []⟩]⟩
    d.bytes.length < 0x100000000 ∧
      LaidOut .big d.bytes d.entries ∧ d.bytesInWords? = some d.bytes ∧
      stringSpans .big d.bytes = [⟨3, 60⟩, ⟨1, 64⟩, ⟨1, 66⟩, ⟨0, 68⟩] ∧
      d.bytes.drop 60 = [97, 0, 98, 0, 99, 0, 100, 0, 0] :=
  let d : Draft := ⟨.big, ⟨1, 0⟩, [⟨[97, 0, 98], [99]⟩, ⟨[100], []⟩]⟩
  have fits : d.bytes.length < 0x100000000 := by decide
  ⟨fits, (bytes_laidOut fits).1, (bytes_laidOut fits).2, by decide, by decide⟩

end Draft
end MessageCatalog.Image
