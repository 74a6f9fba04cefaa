import MessageCatalog.Image.Draft
import MessageCatalog.Proofs.Image.Acceptance

/-! Scanning a written image returns the written entries. Tables and strings are found by offsets
alone, so each piece is located with arbitrary data around it. -/
namespace MessageCatalog.Image

open Binary Charset

section Words

variable (o : ByteOrder) (pre rest : List UInt8)

theorem length_flatMap_bytes (ws : List Nat) : (ws.flatMap (o.bytes 4)).length = 4 * ws.length := by
  induction ws with
  | nil => rfl
  | cons w ws ih => simp [ih]; omega

theorem take_word (n : Nat) :
    ((pre ++ (o.bytes 4 n ++ rest)).drop pre.length).take 4 = o.bytes 4 n := by
  rw [List.drop_left]
  exact List.take_left' (o.length_bytes 4 n)

theorem wordAt_append {n : Nat} (fits : n < valueCount 4) :
    wordAt o (pre ++ (o.bytes 4 n ++ rest)) pre.length = n := by
  rw [wordAt, take_word, ByteOrder.value_bytes, Nat.mod_eq_of_lt fits]

theorem wordAt_words {ws : List Nat} {i n : Nat} (h : ws[i]? = some n) (fits : n < valueCount 4) :
    wordAt o (ws.flatMap (o.bytes 4) ++ rest) (4 * i) = n := by
  obtain ⟨inside, rfl⟩ := List.getElem?_eq_some_iff.1 h
  have cut : ws = ws.take i ++ ws[i] :: ws.drop (i + 1) := by
    rw [← List.drop_eq_getElem_cons inside, List.take_append_drop]
  have split : ws.flatMap (o.bytes 4) ++ rest =
      (ws.take i).flatMap (o.bytes 4) ++
        (o.bytes 4 ws[i] ++ ((ws.drop (i + 1)).flatMap (o.bytes 4) ++ rest)) := by
    conv => lhs; rw [cut]
    simp only [List.flatMap_append, List.flatMap_cons, List.append_assoc]
  have length : ((ws.take i).flatMap (o.bytes 4)).length = 4 * i := by
    rw [length_flatMap_bytes, List.length_take, Nat.min_eq_left (Nat.le_of_lt inside)]
  rw [split, ← length]
  exact wordAt_append o _ _ fits

theorem spanAt_append {s : Span} (length : s.length < valueCount 4)
    (offset : s.offset < valueCount 4) :
    Frame.spanAt o (pre ++ (o.bytes 4 s.length ++ (o.bytes 4 s.offset ++ rest))) pre.length = s := by
  have second := wordAt_append o (pre ++ o.bytes 4 s.length) rest offset
  rw [List.length_append, ByteOrder.length_bytes, List.append_assoc] at second
  rw [Frame.spanAt, wordAt_append o _ _ length, second]

theorem spansAt_table (ss : List Span)
    (fit : ∀ s ∈ ss, s.length < valueCount 4 ∧ s.offset < valueCount 4) :
    ((List.range ss.length).map fun i =>
      Frame.spanAt o (pre ++ ((ss.flatMap fun s => [s.length, s.offset]).flatMap (o.bytes 4) ++ rest))
        (pre.length + spanSize * i)) = ss := by
  induction ss generalizing pre with
  | nil => rfl
  | cons s ss ih =>
    obtain ⟨⟨length, offset⟩, others⟩ := List.forall_mem_cons.1 fit
    have tail := ih (pre ++ o.bytes 4 s.length ++ o.bytes 4 s.offset) others
    simp only [List.length_append, ByteOrder.length_bytes, List.append_assoc] at tail
    simp only [List.length_cons, List.range_succ_eq_map, List.map_cons, List.map_map,
      List.flatMap_cons, List.cons_append, List.nil_append, List.append_assoc]
    refine List.cons_eq_cons.2 ⟨spanAt_append o pre _ length offset, ?_⟩
    refine Eq.trans (List.map_congr_left fun i _ => ?_) tail
    have same : pre.length + spanSize * (i + 1) = pre.length + (4 + 4) + spanSize * i := by
      simp only [spanSize]
      omega
    exact congrArg _ same

end Words

theorem span_of_append (pre bytes rest : List UInt8) :
    (⟨bytes.length, pre.length⟩ : Span).Within (pre ++ (bytes ++ rest)) ∧
      (⟨bytes.length, pre.length⟩ : Span).cut (pre ++ (bytes ++ rest)) = bytes := by
  constructor
  · intro _
    simp only [List.length_append]
    omega
  · rw [Span.cut, List.drop_left, List.take_left' rfl]

/-- Every entry is found in the string area, right after the one before. -/
theorem entries_strings (pre rest : List UInt8) (es : List Entry) :
    ((Draft.spansFrom pre.length es).mapM fun s =>
      Frame.entry (pre ++ (Draft.strings es ++ rest)) s.1 s.2) = .ok es := by
  induction es generalizing pre with
  | nil => rfl
  | cons e es ih =>
    obtain ⟨idWithin, id⟩ :=
      span_of_append pre e.id ([0] ++ (e.text ++ ([0] ++ (Draft.strings es ++ rest))))
    obtain ⟨textWithin, text⟩ :=
      span_of_append (pre ++ e.id ++ [0]) e.text ([0] ++ (Draft.strings es ++ rest))
    have others := ih (pre ++ e.id ++ [0] ++ e.text ++ [0])
    have data : pre ++ (Draft.strings (e :: es) ++ rest) =
        pre ++ (e.id ++ ([0] ++ (e.text ++ ([0] ++ (Draft.strings es ++ rest))))) := by
      simp only [Draft.strings, List.flatMap_cons, List.append_assoc]
    simp only [List.length_append, List.length_singleton, List.append_assoc, ← Nat.add_assoc]
      at textWithin text others
    rw [data, Draft.spansFrom, List.mapM_cons, Frame.entry, if_pos ⟨idWithin, textWithin⟩, id, text]
    exact bind_of_ok others

namespace Draft

variable (d : Draft)

theorem length_strings_cons (e : Entry) (es : List Entry) :
    (strings (e :: es)).length = e.id.length + 1 + (e.text.length + 1) + (strings es).length := by
  simp only [strings, List.flatMap_cons, List.length_append, List.length_singleton]
  omega

/-- No string reaches past the string area. -/
theorem spansFrom_bounds {start : Nat} {es : List Entry} :
    ∀ s ∈ spansFrom start es,
      s.1.offset + s.1.length < start + (strings es).length ∧
      s.2.offset + s.2.length < start + (strings es).length := by
  induction es generalizing start with
  | nil => simp [spansFrom]
  | cons e es ih =>
    rw [spansFrom, List.forall_mem_cons, length_strings_cons]
    refine ⟨by dsimp only; omega, fun s member => ?_⟩
    have bounds := ih s member
    omega

@[simp] theorem length_spansFrom (start : Nat) (es : List Entry) :
    (spansFrom start es).length = es.length := by
  induction es generalizing start with
  | nil => rfl
  | cons e es ih => simp [spansFrom, ih]

theorem length_table (ss : List Span) : (d.table ss).length = spanSize * ss.length := by
  have pairs : (ss.flatMap fun s => [s.length, s.offset]).length = 2 * ss.length := by
    induction ss with
    | nil => rfl
    | cons s ss ih => simp [ih]; omega
  rw [table, words, length_flatMap_bytes, pairs, spanSize]
  omega

theorem length_header : (d.words d.header).length = writtenHeader := by
  rw [words, length_flatMap_bytes]
  rfl

theorem length_beforeStrings :
    (d.words d.header ++ d.table (d.spans.map Prod.fst) ++ d.table (d.spans.map Prod.snd)).length =
      d.stringsStart := by
  simp only [List.length_append, length_header, length_table, List.length_map, spans,
    length_spansFrom, stringsStart, textTable, idTable, tableSize]

theorem length_bytes : d.bytes.length = d.stringsStart + (strings d.entries).length := by
  rw [bytes, List.length_append, length_beforeStrings]

theorem stringsStart_eq : d.stringsStart = 28 + 16 * d.entries.length := by
  simp only [stringsStart, textTable, idTable, tableSize, writtenHeader, spanSize]
  omega

theorem take_bytes : d.bytes.take 4 = d.order.bytes 4 magic := by
  simp only [bytes, words, header, List.flatMap_cons, List.append_assoc]
  exact List.take_left' (d.order.length_bytes 4 magic)

theorem wordAt_header {i n : Nat} (h : d.header[i]? = some n) (fits : n < valueCount 4) :
    wordAt d.order d.bytes (4 * i) = n := by
  rw [bytes, List.append_assoc, List.append_assoc]
  exact wordAt_words d.order _ h fits

theorem orderOf_bytes : Frame.orderOf d.bytes = .ok d.order := Frame.orderOf_eq_ok d.take_bytes

theorem minimalHeader_le_length_bytes : minimalHeader ≤ d.bytes.length := by
  rw [d.length_bytes, d.stringsStart_eq, minimalHeader]
  omega

end Draft

theorem Revision.ofWord_toWord {r : Revision} (minor : r.minor < 0x10000) : ofWord r.toWord = r := by
  have high : (r.major * 0x10000 + r.minor) / 0x10000 = r.major := by omega
  have low : (r.major * 0x10000 + r.minor) % 0x10000 = r.minor := by omega
  rw [ofWord, toWord, high, low]

theorem Draft.revision_bytes {d : Draft} (major : d.revision.major < 0x10000)
    (minor : d.revision.minor < 0x10000) :
    Revision.ofWord (wordAt d.order d.bytes 4) = d.revision := by
  have most : valueCount 4 = 0x100000000 := rfl
  have word : wordAt d.order d.bytes 4 = d.revision.toWord := by
    refine d.wordAt_header (i := 1) rfl ?_
    rw [Revision.toWord]
    omega
  rw [word, Revision.ofWord_toWord minor]

section Fitting

variable {d : Draft}

theorem Draft.wordAt_idTable (d : Draft) : wordAt d.order d.bytes 12 = d.idTable :=
  d.wordAt_header (i := 3) rfl (show 28 < valueCount 4 by decide)

/-- The count of entries is read back from an image that fits into words. -/
theorem Draft.wordAt_count (fits : d.bytes.length < valueCount 4) :
    wordAt d.order d.bytes 8 = d.entries.length := by
  have total := d.length_bytes
  have start := d.stringsStart_eq
  exact d.wordAt_header (i := 2) rfl (by omega)

/-- The place of the second table is read back. -/
theorem Draft.wordAt_textTable (fits : d.bytes.length < valueCount 4) :
    wordAt d.order d.bytes 16 = d.textTable := by
  have total := d.length_bytes
  have start := d.stringsStart_eq
  have place : d.textTable = 28 + 8 * d.entries.length := rfl
  exact d.wordAt_header (i := 4) rfl (by omega)

/-- The place of every string fits into a word. -/
theorem Draft.spans_fit (fits : d.bytes.length < valueCount 4) :
    ∀ s ∈ d.spans, (s.1.length < valueCount 4 ∧ s.1.offset < valueCount 4) ∧
      s.2.length < valueCount 4 ∧ s.2.offset < valueCount 4 := by
  intro s member
  have total := d.length_bytes
  have bounds := Draft.spansFrom_bounds s member
  omega

end Fitting

namespace Frame

theorem spans_table (o : ByteOrder) (pre rest : List UInt8) (ss : List Span)
    (fit : ∀ s ∈ ss, s.length < valueCount 4 ∧ s.offset < valueCount 4) :
    spans o (pre ++ ((ss.flatMap fun s => [s.length, s.offset]).flatMap (o.bytes 4) ++ rest))
      pre.length ss.length = .ok ss := by
  have size := (⟨o, ⟨0, 0⟩, []⟩ : Draft).length_table ss
  simp only [Draft.table, Draft.words] at size
  rw [spans, if_pos (by rw [List.length_append, List.length_append, size]; omega),
    spansAt_table o pre rest ss fit]

variable {d : Draft}

theorem spans_ids (fit : ∀ s ∈ d.spans, s.1.length < valueCount 4 ∧ s.1.offset < valueCount 4) :
    spans d.order d.bytes d.idTable d.entries.length = .ok (d.spans.map Prod.fst) := by
  have found := spans_table d.order (d.words d.header)
    (d.table (d.spans.map Prod.snd) ++ Draft.strings d.entries) (d.spans.map Prod.fst)
    (List.forall_mem_map.2 fit)
  rw [d.length_header, List.length_map, Draft.spans, Draft.length_spansFrom] at found
  rw [Draft.bytes, List.append_assoc, List.append_assoc]
  exact found

theorem spans_texts (fit : ∀ s ∈ d.spans, s.2.length < valueCount 4 ∧ s.2.offset < valueCount 4) :
    spans d.order d.bytes d.textTable d.entries.length = .ok (d.spans.map Prod.snd) := by
  have found := spans_table d.order (d.words d.header ++ d.table (d.spans.map Prod.fst))
    (Draft.strings d.entries) (d.spans.map Prod.snd) (List.forall_mem_map.2 fit)
  rw [List.length_append, d.length_header, d.length_table, List.length_map, List.length_map,
    Draft.spans, Draft.length_spansFrom] at found
  rw [Draft.bytes, List.append_assoc (d.words d.header ++ _)]
  exact found

theorem entries_bytes :
    (((d.spans.map Prod.fst).zip (d.spans.map Prod.snd)).mapM fun (id, text) =>
      entry d.bytes id text) = .ok d.entries := by
  have found := entries_strings
    (d.words d.header ++ d.table (d.spans.map Prod.fst) ++ d.table (d.spans.map Prod.snd))
    [] d.entries
  have pairs : d.spans = (d.spans.map Prod.fst).zip (d.spans.map Prod.snd) :=
    List.zip_of_prod rfl rfl
  rw [d.length_beforeStrings, List.append_nil] at found
  rw [← pairs]
  exact found

theorem ofBytes_eq_inOrder (d : Draft) : ofBytes d.bytes = inOrder d.order d.bytes := by
  rw [ofBytes_eq, if_neg (Nat.not_lt.2 d.minimalHeader_le_length_bytes), bind_of_ok d.orderOf_bytes]

/-- Scanning a frame inverts writing, for entries of any bytes. -/
theorem ofBytes_bytes (d : Draft) (major : d.revision.major ≤ supportedMajor)
    (minor : d.revision.minor < 0x10000) (fits : d.bytes.length < valueCount 4) :
    ofBytes d.bytes = .ok ⟨d.order, d.revision, d.entries⟩ := by
  have fit := Draft.spans_fit fits
  have revision := d.revision_bytes (Nat.lt_of_le_of_lt major (by decide)) minor
  rw [ofBytes_eq_inOrder, inOrder]
  simp only [revision, Draft.wordAt_count fits, d.wordAt_idTable, Draft.wordAt_textTable fits]
  rw [if_neg (Nat.not_lt.2 major), bind_of_ok (spans_ids fun s member => (fit s member).1),
    bind_of_ok (spans_texts fun s member => (fit s member).2), bind_of_ok entries_bytes]

/-- Nothing else is scanned under an unsupported revision. -/
theorem ofBytes_bytes_of_newer (newer : supportedMajor < d.revision.major)
    (major : d.revision.major < 0x10000) (minor : d.revision.minor < 0x10000) :
    ofBytes d.bytes = .error (.unsupportedRevision d.revision.major d.revision.minor) := by
  rw [ofBytes_eq_inOrder, inOrder]
  simp only [d.revision_bytes major minor]
  rw [if_pos newer]

end Frame

/-- Entries of any bytes are read back in order, and decoded as the options say. -/
theorem read_bytes {E : Type} [Encodings E] {options : LoadOptions E} {d : Draft}
    (major : d.revision.major ≤ 1) (minor : d.revision.minor < 0x10000)
    (fits : d.bytes.length < 0x100000000) :
    read options d.bytes =
      .ok ⟨d.order, d.revision, Contents.ofEntries options d.entries⟩ := by
  rw [read, bind_of_ok (Frame.ofBytes_bytes d major minor fits)]

namespace Draft

def addEntries (d : Draft) (entries : List Entry) : Draft :=
  entries.foldl (fun d e => d.addBytes e.id e.text) d

theorem addEntries_eq (d : Draft) (entries : List Entry) :
    d.addEntries entries = { d with entries := d.entries ++ entries } := by
  induction entries generalizing d with
  | nil => simp [addEntries]
  | cons e entries ih =>
    rw [addEntries, List.foldl_cons]
    refine (ih (d.addBytes e.id e.text)).trans ?_
    simp [addBytes]

def ofEntries (order : ByteOrder) (revision : Revision) (entries : List Entry) : Draft :=
  (⟨order, revision, []⟩ : Draft).addEntries entries

theorem ofEntries_eq (order : ByteOrder) (revision : Revision) (entries : List Entry) :
    ofEntries order revision entries = ⟨order, revision, entries⟩ :=
  addEntries_eq ⟨order, revision, []⟩ entries

theorem length_bytes_ofEntries (order : ByteOrder) (revision : Revision) (entries : List Entry) :
    (ofEntries order revision entries).bytes.length =
      28 + 16 * entries.length + (strings entries).length := by
  rw [ofEntries_eq, length_bytes, stringsStart_eq]

end Draft

section Entries

variable {E : Type} [Encodings E] {options : LoadOptions E} {order : ByteOrder}
  {revision : Revision} {entries : List Entry}

theorem read_ofEntries (major : revision.major ≤ 1) (minor : revision.minor < 0x10000)
    (fits : (Draft.ofEntries order revision entries).bytes.length < 0x100000000) :
    read options (Draft.ofEntries order revision entries).bytes =
      .ok ⟨order, revision, Contents.ofEntries options entries⟩ := by
  rw [Draft.ofEntries_eq] at fits ⊢
  exact read_bytes major minor fits

theorem read_ofEntries_of_newer (newer : 1 < revision.major) (major : revision.major < 0x10000)
    (minor : revision.minor < 0x10000) :
    read options (Draft.ofEntries order revision entries).bytes =
      .error (.unsupportedRevision revision.major revision.minor) := by
  rw [Draft.ofEntries_eq]
  exact bind_of_error (Frame.ofBytes_bytes_of_newer newer major minor)

end Entries

end MessageCatalog.Image
