import MessageCatalog.Image.Frame
import MessageCatalog.Proofs.Outcome

/-! The cursor scan as a function of addresses: each word and string is found at its offset,
wherever the cursor stood before. -/
namespace MessageCatalog.Image

open Binary

namespace Span

/-- An empty span lies anywhere. -/
def Within (s : Span) (data : List UInt8) : Prop :=
  0 < s.length → s.offset + s.length ≤ data.length

instance (s : Span) (data : List UInt8) : Decidable (s.Within data) :=
  inferInstanceAs (Decidable (_ → _))

def cut (s : Span) (data : List UInt8) : List UInt8 := (data.drop s.offset).take s.length

end Span

def wordAt (order : ByteOrder) (data : List UInt8) (offset : Nat) : Nat :=
  order.value ((data.drop offset).take 4)

namespace Frame

def orderOf (data : List UInt8) : Except Problem ByteOrder :=
  if wordAt .little data 0 = magic then .ok .little
  else if wordAt .big data 0 = magic then .ok .big
  else .error (.invalidMagic (wordAt .little data 0))

def spanAt (order : ByteOrder) (data : List UInt8) (offset : Nat) : Span :=
  ⟨wordAt order data offset, wordAt order data (offset + 4)⟩

def spans (order : ByteOrder) (data : List UInt8) (offset count : Nat) :
    Except Problem (List Span) :=
  if offset + spanSize * count ≤ data.length then
    .ok ((List.range count).map fun i => spanAt order data (offset + spanSize * i))
  else .error .endOfData

def entry (data : List UInt8) (id text : Span) : Except Problem Entry :=
  if id.Within data ∧ text.Within data then .ok ⟨id.cut data, text.cut data⟩
  else .error .endOfData

def inOrder (order : ByteOrder) (data : List UInt8) : Except Problem Frame :=
  let revision := Revision.ofWord (wordAt order data 4)
  let count := wordAt order data 8
  if supportedMajor < revision.major then
    .error (.unsupportedRevision revision.major revision.minor)
  else do
    let ids ← spans order data (wordAt order data 12) count
    let texts ← spans order data (wordAt order data 16) count
    let entries ← (ids.zip texts).mapM fun (id, text) => entry data id text
    .ok ⟨order, revision, entries⟩

end Frame

namespace Scan

variable {α β : Type} {c : Cursor} {scan : Scan α} {f : α → Scan β}

/-- Reaches an outcome, moving only the position of the cursor. -/
def ComesTo (scan : Scan α) (c : Cursor) (outcome : Except Problem α) : Prop :=
  ∃ p, scan c = outcome.map fun a => (a, c.seek p)

section Steps

theorem bind_of_ok {a : α} {d : Cursor} (h : scan c = .ok (a, d)) : (scan >>= f) c = f a d :=
  MessageCatalog.bind_of_ok h

theorem ComesTo.pure (a : α) (c : Cursor) : ComesTo (Pure.pure a) c (.ok a) := ⟨c.position, rfl⟩

theorem ComesTo.after {a : α} {p : Nat} {outcome : Except Problem β}
    (first : scan c = .ok (a, c.seek p)) (later : ComesTo (f a) (c.seek p) outcome) :
    ComesTo (scan >>= f) c outcome := by
  obtain ⟨q, ends⟩ := later
  exact ⟨q, (bind_of_ok first).trans ends⟩

theorem ComesTo.andThen {a : α} {outcome : Except Problem β} (first : ComesTo scan c (.ok a))
    (later : ∀ p, ComesTo (f a) (c.seek p) outcome) : ComesTo (scan >>= f) c outcome := by
  obtain ⟨p, came⟩ := first
  exact .after came (later p)

theorem ComesTo.fails {cause : Problem} (first : ComesTo scan c (.error cause)) :
    ComesTo (scan >>= f) c (.error cause) := by
  obtain ⟨p, came⟩ := first
  exact ⟨p, MessageCatalog.bind_of_error came⟩

theorem ComesTo.bind {outcome : Except Problem α} {next : α → Except Problem β}
    (first : ComesTo scan c outcome) (later : ∀ a p, ComesTo (f a) (c.seek p) (next a)) :
    ComesTo (scan >>= f) c (outcome >>= next) := by
  cases outcome with
  | error cause => exact first.fails
  | ok a => exact first.andThen (later a)

end Steps

section Words

theorem word_of_inside (inside : c.position + 4 ≤ c.data.length) :
    word c = .ok (wordAt c.order c.data c.position, c.seek (c.position + 4)) := by
  have all : (c.ahead 4).length = 4 := by
    rw [Cursor.ahead, List.length_take, List.length_drop]
    omega
  have read : c.unsigned 4 =
      (some (wordAt c.order c.data c.position), c.seek (c.position + 4)) := if_pos all
  rw [word, complete, read]

theorem span_of_inside (inside : c.position + 8 ≤ c.data.length) :
    span c = .ok (Frame.spanAt c.order c.data c.position, c.seek (c.position + 8)) := by
  have second : (c.seek (c.position + 4)).position + 4 ≤ c.data.length := by
    rw [Cursor.seek]
    omega
  rw [span, bind_of_ok (word_of_inside (by omega)), bind_of_ok (word_of_inside second)]
  rfl

theorem spans_of_inside {count : Nat} (inside : c.position + spanSize * count ≤ c.data.length) :
    ComesTo (spans count) c
      (.ok ((List.range count).map fun i =>
        Frame.spanAt c.order c.data (c.position + spanSize * i))) := by
  induction count generalizing c with
  | zero => exact .pure [] c
  | succ count ih =>
    simp only [spanSize] at inside ih ⊢
    have others : (c.seek (c.position + 8)).position + 8 * count ≤ c.data.length := by
      simp only [Cursor.seek]
      omega
    have next (i : Nat) : c.position + 8 + 8 * i = c.position + 8 * (i + 1) := by omega
    have rest := (ih others).bind fun found _ =>
      ComesTo.pure (Frame.spanAt c.order c.data c.position :: found) _
    simp only [Cursor.seek, next] at rest
    simp only [List.range_succ_eq_map, List.map_cons, List.map_map]
    exact .after (span_of_inside (by omega)) rest

/-- A table is found or refused wherever the cursor stood before. -/
theorem comesTo_table (offset count : Nat) (c : Cursor) :
    ComesTo (table offset count) c (Frame.spans c.order c.data offset count) := by
  rw [Frame.spans]
  have known : (get : Scan Cursor) c = .ok (c, c.seek c.position) := rfl
  by_cases inside : offset + spanSize * count ≤ c.data.length
  · rw [if_pos inside]
    refine .after known ?_
    rw [if_neg (Nat.not_lt.2 inside)]
    have moved : seek offset (c.seek c.position) = .ok ((), c.seek offset) := rfl
    exact .after moved (spans_of_inside inside)
  · rw [if_neg inside]
    refine .after known ?_
    rw [if_pos (Nat.lt_of_not_le inside)]
    exact ⟨c.position, rfl⟩

end Words

section Strings

/-- An empty string lies anywhere, also past the end. -/
theorem length_cut_iff (s : Span) (data : List UInt8) :
    (s.cut data).length = s.length ↔ s.Within data := by
  rw [Span.cut, Span.Within, List.length_take, List.length_drop]
  omega

theorem string_of_within {s : Span} (within : s.Within c.data) :
    ComesTo (string s) c (.ok (s.cut c.data)) := by
  have moved : seek s.offset c = .ok ((), c.seek s.offset) := rfl
  have read : (c.seek s.offset).bytes s.length =
      (some (s.cut c.data), c.seek (s.offset + (s.cut c.data).length)) :=
    if_pos ((length_cut_iff s c.data).2 within)
  refine .after moved ⟨s.offset + (s.cut c.data).length, ?_⟩
  rw [complete, read]
  rfl

theorem string_of_not_within {s : Span} (past : ¬s.Within c.data) :
    ComesTo (string s) c (.error .endOfData) := by
  have moved : seek s.offset c = .ok ((), c.seek s.offset) := rfl
  have read : (c.seek s.offset).bytes s.length =
      (none, c.seek (s.offset + (s.cut c.data).length)) :=
    if_neg (past ∘ (length_cut_iff s c.data).1)
  refine .after moved ⟨s.offset, ?_⟩
  rw [complete, read]
  rfl

theorem comesTo_entry (id text : Span) (c : Cursor) :
    ComesTo (entry id text) c (Frame.entry c.data id text) := by
  rw [Frame.entry]
  by_cases first : id.Within c.data
  · refine .andThen (string_of_within first) fun p => ?_
    by_cases second : text.Within c.data
    · rw [if_pos ⟨first, second⟩]
      exact .andThen (string_of_within (c := c.seek p) second) fun q => .pure _ _
    · rw [if_neg fun both => second both.2]
      exact .fails (string_of_not_within (c := c.seek p) second)
  · rw [if_neg fun both => first both.1]
    exact .fails (string_of_not_within first)

theorem comesTo_entries (pairs : List (Span × Span)) (c : Cursor) :
    ComesTo (pairs.mapM fun (id, text) => entry id text) c
      (pairs.mapM fun (id, text) => Frame.entry c.data id text) := by
  induction pairs generalizing c with
  | nil => exact .pure [] c
  | cons pair pairs ih =>
    rw [List.mapM_cons, List.mapM_cons]
    exact (comesTo_entry pair.1 pair.2 c).bind fun e p =>
      (ih (c.seek p)).bind fun es q => .pure (e :: es) _

end Strings

theorem comesTo_body (order : ByteOrder) {data : List UInt8}
    (long : minimalHeader ≤ data.length) :
    ComesTo (body order) ⟨data, 4, order⟩ (Frame.inOrder order data) := by
  have header {p : Nat} (inside : p + 4 ≤ 20) :
      word ⟨data, p, order⟩ = .ok (wordAt order data p, ⟨data, p + 4, order⟩) :=
    word_of_inside (Nat.le_trans inside long)
  rw [Frame.inOrder]
  refine .after (header (by decide)) ?_
  by_cases newer : supportedMajor < (Revision.ofWord (wordAt order data 4)).major
  · simp only [if_pos newer]
    exact ⟨8, rfl⟩
  · simp only [if_neg newer]
    refine .after (header (by decide)) (.after (header (by decide)) (.after (header (by decide)) ?_))
    exact (comesTo_table _ _ _).bind fun ids p => (comesTo_table _ _ _).bind fun texts q =>
      (comesTo_entries (ids.zip texts) _).bind fun entries r => .pure _ _

theorem swapped_wordAt (data : List UInt8) (long : 4 ≤ data.length) :
    swapped (wordAt .little data 0) = wordAt .big data 0 := by
  have all : (data.take 4).length = 4 := by rw [List.length_take, Nat.min_eq_left long]
  have spelled := ByteOrder.little.bytes_value (data.take 4)
  rw [all] at spelled
  rw [swapped, wordAt, wordAt, List.drop_zero, spelled]

theorem orderOf_wordAt (data : List UInt8) (long : 4 ≤ data.length) :
    orderOf (wordAt .little data 0) = Frame.orderOf data := by
  rw [orderOf, Frame.orderOf, swapped_wordAt data long]

theorem run_frame {data : List UInt8} (long : minimalHeader ≤ data.length) :
    frame.run' (Cursor.ofData data .little) =
      Frame.orderOf data >>= fun order => Frame.inOrder order data := by
  have word : 4 ≤ data.length := Nat.le_trans (by decide) long
  have known := orderOf_wordAt data word
  rw [StateT.run', frame, bind_of_ok (word_of_inside word)]
  change Prod.fst <$> (liftM (orderOf (wordAt .little data 0)) >>= _ : Scan Frame) _ = _
  rw [known]
  cases Frame.orderOf data with
  | error cause => rfl
  | ok order =>
    obtain ⟨p, came⟩ := comesTo_body order long
    change Prod.fst <$> body order ⟨data, 4, order⟩ = Frame.inOrder order data
    rw [came]
    cases Frame.inOrder order data <;> rfl

end Scan

theorem Frame.ofBytes_eq (data : List UInt8) :
    Frame.ofBytes data =
      if data.length < minimalHeader then .error .endOfData
      else Frame.orderOf data >>= fun order => Frame.inOrder order data := by
  rw [Frame.ofBytes]
  split
  · rfl
  · next long => exact Scan.run_frame (Nat.not_lt.1 long)

end MessageCatalog.Image
