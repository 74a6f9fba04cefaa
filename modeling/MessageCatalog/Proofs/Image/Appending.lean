import MessageCatalog.Proofs.Charset.Cyrillic
import MessageCatalog.Proofs.Image.Acceptance
import MessageCatalog.Proofs.Charset.Cyrillic
import MessageCatalog.Proofs.Image.RoundTrip

/-! Bytes after the end of an image. Reading depends on no byte past the strings, so appended bytes
can change only the outcome that data end too soon. -/
namespace MessageCatalog.Image

open Binary Charset

section Places

variable {data : List UInt8}

theorem take_drop_append (more : List UInt8) {offset size : Nat}
    (inside : offset + size ≤ data.length) :
    ((data ++ more).drop offset).take size = (data.drop offset).take size := by
  have reaches : size ≤ (data.drop offset).length := by
    rw [List.length_drop]
    omega
  rw [List.drop_append_of_le_length (by omega), List.take_append_of_le_length reaches]

theorem wordAt_of_append (order : ByteOrder) (more : List UInt8) {offset : Nat}
    (inside : offset + 4 ≤ data.length) :
    wordAt order (data ++ more) offset = wordAt order data offset := by
  rw [wordAt, take_drop_append more inside, wordAt]

theorem spanAt_of_append (order : ByteOrder) (more : List UInt8) {offset : Nat}
    (inside : offset + 8 ≤ data.length) :
    Frame.spanAt order (data ++ more) offset = Frame.spanAt order data offset := by
  simp only [Frame.spanAt]
  rw [wordAt_of_append order more (by omega), wordAt_of_append order more (by omega)]

theorem Span.Within.append {s : Span} (within : s.Within data) (more : List UInt8) :
    s.Within (data ++ more) := by
  intro filled
  have inside := within filled
  rw [List.length_append]
  omega

theorem Span.Within.cut_append {s : Span} (within : s.Within data) (more : List UInt8) :
    s.cut (data ++ more) = s.cut data := by
  rcases Nat.eq_zero_or_pos s.length with empty | filled
  · simp [Span.cut, empty]
  · exact take_drop_append more (within filled)

end Places

section Tables

variable {order : ByteOrder} {data : List UInt8}

theorem entryCount_append (long : 20 ≤ data.length) (more : List UInt8) :
    entryCount order (data ++ more) = entryCount order data :=
  wordAt_of_append order more (by omega)

theorem Complete.idSpan_append (h : Complete order data) (long : 20 ≤ data.length)
    (more : List UInt8) {i : Nat} (listed : i < entryCount order data) :
    idSpan order (data ++ more) i = idSpan order data i := by
  have table := h.ids
  rw [idSpan, idSpan, wordAt_of_append order more (by omega)]
  apply spanAt_of_append
  simp only [spanSize]
  omega

theorem Complete.textSpan_append (h : Complete order data) (long : 20 ≤ data.length)
    (more : List UInt8) {i : Nat} (listed : i < entryCount order data) :
    textSpan order (data ++ more) i = textSpan order data i := by
  have table := h.texts
  rw [textSpan, textSpan, wordAt_of_append order more (by omega)]
  apply spanAt_of_append
  simp only [spanSize]
  omega

theorem Complete.append (h : Complete order data) (long : 20 ≤ data.length)
    (more : List UInt8) : Complete order (data ++ more) := by
  have count : entryCount order (data ++ more) = entryCount order data :=
    entryCount_append long more
  constructor
  · have table := h.ids
    rw [count, wordAt_of_append order more (by omega), List.length_append]
    omega
  · have table := h.texts
    rw [count, wordAt_of_append order more (by omega), List.length_append]
    omega
  · intro i listed
    rw [count] at listed
    obtain ⟨id, text⟩ := h.strings i listed
    rw [h.idSpan_append long more listed, h.textSpan_append long more listed]
    exact ⟨id.append more, text.append more⟩

theorem Complete.entriesIn_append (h : Complete order data) (long : 20 ≤ data.length)
    (more : List UInt8) : entriesIn order (data ++ more) = entriesIn order data := by
  rw [entriesIn, entriesIn, entryCount_append long]
  apply List.map_congr_left
  intro i member
  have listed := List.mem_range.1 member
  obtain ⟨id, text⟩ := h.strings i listed
  rw [h.idSpan_append long more listed, h.textSpan_append long more listed, id.cut_append more,
    text.cut_append more]

end Tables

namespace Frame

variable {order : ByteOrder} {data : List UInt8}

theorem orderOf_append (long : 20 ≤ data.length) (more : List UInt8) :
    orderOf (data ++ more) = orderOf data := by
  simp only [orderOf]
  rw [wordAt_of_append .little more (by omega), wordAt_of_append .big more (by omega)]

theorem inOrder_append (long : 20 ≤ data.length) (more : List UInt8)
    (ends : inOrder order data ≠ .error .endOfData) :
    inOrder order (data ++ more) = inOrder order data := by
  have word : wordAt order (data ++ more) 4 = wordAt order data 4 :=
    wordAt_of_append order more (by omega)
  by_cases supported : (Revision.ofWord (wordAt order data 4)).major ≤ 1
  · have still : (Revision.ofWord (wordAt order (data ++ more) 4)).major ≤ 1 := by rwa [word]
    rw [inOrder_eq supported] at ends
    have complete : Complete order data :=
      Decidable.byContradiction fun incomplete => ends (if_neg incomplete)
    rw [inOrder_eq supported, inOrder_eq still, if_pos complete, if_pos (complete.append long more),
      word, complete.entriesIn_append long more]
  · -- a revision that is too new is refused before the tables are looked at
    have refused (d : List UInt8) (same : wordAt order d 4 = wordAt order data 4) :
        inOrder order d = .error (.unsupportedRevision
          (Revision.ofWord (wordAt order data 4)).major
          (Revision.ofWord (wordAt order data 4)).minor) := by
      rw [inOrder, same]
      exact if_pos (Nat.lt_of_not_le supported)
    rw [refused data rfl, refused (data ++ more) word]

theorem ofBytes_append (more : List UInt8) (ends : ofBytes data ≠ .error .endOfData) :
    ofBytes (data ++ more) = ofBytes data := by
  have long : ¬data.length < minimalHeader := fun short =>
    ends ((ofBytes_eq data).trans (if_pos short))
  have header : 20 ≤ data.length := Nat.not_lt.1 long
  have longer : ¬(data ++ more).length < minimalHeader := by
    rw [List.length_append]
    omega
  rw [ofBytes_eq, if_neg long] at ends
  rw [ofBytes_eq, if_neg longer, ofBytes_eq, if_neg long, orderOf_append header]
  cases known : orderOf data with
  | error cause => rfl
  | ok order =>
    rw [known] at ends
    exact inOrder_append header more ends

end Frame

section Reading

variable {E : Type} [Encodings E] {options : LoadOptions E} {data : List UInt8}

/-- Unless the data end too soon, nothing depends on what follows them. -/
theorem read_of_append (more : List UInt8) (ends : read options data ≠ .error .endOfData) :
    read options (data ++ more) = read options data := by
  have framed : Frame.ofBytes data ≠ .error .endOfData := by
    intro early
    exact ends (bind_of_error early)
  rw [read, Frame.ofBytes_append more framed, read]

/-- A prefix of any data reads as the whole, or ends too soon. -/
theorem read_take (options : LoadOptions E) (data : List UInt8) (size : Nat) :
    read options (data.take size) = read options data ∨
      read options (data.take size) = .error .endOfData := by
  by_cases ends : read options (data.take size) = .error .endOfData
  · exact .inr ends
  · have whole := read_of_append (data.drop size) ends
    rw [List.take_append_drop] at whole
    exact .inl whole.symm

end Reading

/-- Appending bytes keeps accepted contents and the refusals of magic word and revision; a prefix of
an accepted image reads as the whole or is too short. -/
theorem read_append {E : Type} [Encodings E] (options : LoadOptions E) (data more : List UInt8) :
    (∀ reading, read options data = .ok reading →
      read options (data ++ more) = .ok reading) ∧
    (∀ magic, read options data = .error (.invalidMagic magic) →
      read options (data ++ more) = .error (.invalidMagic magic)) ∧
    (∀ major minor, read options data = .error (.unsupportedRevision major minor) →
      read options (data ++ more) = .error (.unsupportedRevision major minor)) ∧
    (∀ reading, read options data = .ok reading → ∀ size : Nat,
      read options (data.take size) = .ok reading ∨
        read options (data.take size) = .error .endOfData) := by
  have keeps {outcome : Except Problem (Reading E)} (here : read options data = outcome)
      (other : outcome ≠ .error .endOfData) : read options (data ++ more) = outcome := by
    have ends : read options data ≠ .error .endOfData := by rwa [here]
    rw [read_of_append more ends, here]
  refine ⟨?_, ?_, ?_, ?_⟩
  · intro reading accepted
    exact keeps accepted (by simp)
  · intro magic refused
    exact keeps refused (by simp)
  · intro major minor refused
    exact keeps refused (by simp)
  · intro reading accepted size
    rw [← accepted]
    exact read_take options data size

def greetingImage : List UInt8 :=
  (Draft.ofEntries .big ⟨1, 2⟩ [.ofTexts ("", "Language: de\n"), .ofTexts ("Hello", "Hallo")]).bytes

/-- One byte more changes nothing and two bytes less are refused; a foreign magic word stays refused
before a whole image. -/
theorem read_append_greeting :
    (∃ reading, read Cyrillic.options greetingImage = .ok reading ∧
      reading.contents.messages.find? "Hello" = some ["Hallo"] ∧
      read Cyrillic.options (greetingImage ++ [7]) = .ok reading ∧
      read Cyrillic.options (greetingImage.take (greetingImage.length - 2)) = .error .endOfData) ∧
    (read Cyrillic.options (List.replicate 20 0) = .error (.invalidMagic 0) ∧
      read Cyrillic.options (List.replicate 20 0 ++ greetingImage) = .error (.invalidMagic 0)) ∧
    (read Cyrillic.options (Draft.ofEntries .little ⟨2, 1⟩ []).bytes =
        .error (.unsupportedRevision 2 1) ∧
      read Cyrillic.options ((Draft.ofEntries .little ⟨2, 1⟩ []).bytes ++ [0]) =
        .error (.unsupportedRevision 2 1)) := by
  have foreign : read Cyrillic.options (List.replicate 20 0) = .error (.invalidMagic 0) := by
    decide +kernel
  have newer : read Cyrillic.options (Draft.ofEntries .little ⟨2, 1⟩ []).bytes =
      .error (.unsupportedRevision 2 1) := by
    decide +kernel
  have lacking : read Cyrillic.options (greetingImage.take (greetingImage.length - 2)) =
      .error .endOfData := by
    decide +kernel
  refine ⟨?_, ⟨foreign, ?_⟩, newer, ?_⟩
  · have told : (read Cyrillic.options greetingImage).toOption.map
        (·.contents.messages.find? "Hello") = some (some ["Hallo"]) := by
      decide +kernel
    cases accepted : read Cyrillic.options greetingImage with
    | error cause => simp [accepted, Except.toOption] at told
    | ok reading =>
      rw [accepted] at told
      have same := (read_append Cyrillic.options greetingImage [7]).1 reading accepted
      exact ⟨reading, rfl, Option.some.inj told, same, lacking⟩
  · exact (read_append Cyrillic.options (List.replicate 20 0) greetingImage).2.1 0 foreign
  · exact (read_append Cyrillic.options (Draft.ofEntries .little ⟨2, 1⟩ []).bytes [0]).2.2.1 2 1 newer

end MessageCatalog.Image
