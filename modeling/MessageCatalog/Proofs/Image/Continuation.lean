import MessageCatalog.Proofs.Image.RoundTrip

/-! Reading more entries continues where the first ones ended. A header affects the encoding, fields
and warnings from then on, and is itself read in the previous encoding. -/
namespace MessageCatalog

open Charset Charset.Encodings

variable {E : Type} [Encodings E]

def Header.Fields.encoding? (fields : Fields) : Option E := do
  let value ← fields.value? "Content-Type"
  let type ← MediaType.parse? value
  let label ← type.charset?
  ofLabel? label

namespace Image

/-- Only header entries change the encoding. -/
def encodingAfter (detect : Bool) (encoding : E) (fields : Header.Fields) (p : String × String) : E :=
  if detect = true ∧ idKey p.1 = "" then (addFields fields p).encoding?.getD encoding else encoding

/-- Each entry decoded in the encoding then in force. -/
def inClear (detect : Bool) : E → Header.Fields → List Entry → List (String × String)
  | _, _, [] => []
  | encoding, fields, e :: rest =>
    let p := e.texts encoding
    p :: inClear detect (encodingAfter detect encoding fields p) (addFields fields p) rest

section InClear

variable {detect : Bool} {encoding : E} {fields : Header.Fields}
  {entries : List Entry}

/-- Up to and including the first header, entries are in the initial encoding. -/
theorem take_inClear {n : Nat}
    (plain : ∀ e ∈ entries.take n, idKey (e.texts encoding).1 ≠ "") :
    (inClear detect encoding fields entries).take (n + 1) =
      (entries.take (n + 1)).map (Entry.texts encoding) := by
  induction n generalizing fields entries with
  | zero => cases entries <;> rfl
  | succ n ih =>
    cases entries with
    | nil => rfl
    | cons e entries =>
      obtain ⟨first, others⟩ := List.forall_mem_cons.1 plain
      have same : encodingAfter detect encoding fields (e.texts encoding) = encoding :=
        if_neg fun header => first header.2
      rw [inClear, List.take_succ_cons, List.take_succ_cons, List.map_cons, same, ih others]

theorem inClear_of_not_detect :
    inClear false encoding fields entries = entries.map (Entry.texts encoding) := by
  induction entries generalizing fields with
  | nil => rfl
  | cons e entries ih => exact congrArg (e.texts encoding :: ·) ih

end InClear

namespace Contents

theorem followCharset_eq (messages : Messages) (fields : Header.Fields) (encoding : E)
    (warnings : List Problem) : ∃ noted : List Problem,
    followCharset ⟨messages, fields, encoding, warnings⟩ =
      ⟨messages, fields, fields.encoding?.getD encoding, warnings ++ noted⟩ := by
  rw [followCharset, Header.Fields.encoding?]
  dsimp only
  cases fields.value? "Content-Type" with
  | none => exact ⟨[], by simp⟩
  | some value =>
    cases parsed : Header.MediaType.parse? value with
    | none => exact ⟨[.unresolvedCharset value], by simp [parsed, warn]⟩
    | some type =>
      cases declared : type.charset? with
      | none => exact ⟨[], by simp [parsed, declared]⟩
      | some label =>
        cases known : (ofLabel? label : Option E) with
        | none => exact ⟨[.unresolvedCharset label], by simp [parsed, declared, known, warn]⟩
        | some encoding => exact ⟨[], by simp [parsed, declared, known]⟩

theorem addHeader_true (c : Contents E) (text : List Char) :
    c.addHeader true text =
      followCharset { c with fields := c.fields.extend (Header.Fields.parse text) } := rfl

/-- The effect of one entry. -/
theorem addEntry_spec (c : Contents E) (detect : Bool) {e : Entry} {p : String × String}
    (clear : e.texts c.encoding = p) : ∃ noted : List Problem, (detect = false → noted = []) ∧
      c.addEntry detect e =
        ⟨addMessage c.messages p, addFields c.fields p, encodingAfter detect c.encoding c.fields p,
          c.warnings ++ noted⟩ := by
  rw [addEntry_eq, clear]
  by_cases header : idKey p.1 = ""
  -- Only a header entry whose charset is followed can leave a warning.
  · have messages : addMessage c.messages p = c.messages := if_pos header
    have fields : addFields c.fields p =
        c.fields.extend (Header.Fields.parse ((textForms p.2).headD "").toList) := if_pos header
    rw [if_pos header, messages, fields]
    cases detect with
    | false => exact ⟨[], fun _ => rfl, by simp [addHeader_false, encodingAfter]⟩
    | true =>
      have encoding : encodingAfter true c.encoding c.fields p =
          (addFields c.fields p).encoding?.getD c.encoding := if_pos ⟨rfl, header⟩
      rw [encoding, fields, addHeader_true]
      obtain ⟨noted, followed⟩ := followCharset_eq c.messages _ c.encoding c.warnings
      exact ⟨noted, nofun, followed⟩
  · have fields : addFields c.fields p = c.fields := if_neg header
    have encoding : encodingAfter detect c.encoding c.fields p = c.encoding :=
      if_neg fun both => header both.2
    rw [if_neg header, fields, encoding]
    exact ⟨[], fun _ => rfl, by simp⟩

/-- The effect of a run of entries. -/
theorem foldl_addEntry (c : Contents E) (detect : Bool) (entries : List Entry) :
    let texts := inClear detect c.encoding c.fields entries
    ∃ (encoding : E) (noted : List Problem),
      (detect = false → encoding = c.encoding ∧ noted = []) ∧
      entries.foldl (addEntry detect) c =
        ⟨texts.foldl addMessage c.messages, texts.foldl addFields c.fields, encoding,
          c.warnings ++ noted⟩ := by
  -- The contents are arbitrary, since each entry leaves another encoding and other fields behind.
  induction entries generalizing c with
  | nil => exact ⟨c.encoding, [], fun _ => ⟨rfl, rfl⟩, by simp [inClear]⟩
  | cons e entries ih =>
    obtain ⟨first, silent, step⟩ := c.addEntry_spec detect (e := e) rfl
    obtain ⟨encoding, later, settled, run⟩ := ih (c.addEntry detect e)
    refine ⟨encoding, first ++ later, fun off => ?_, ?_⟩
    · obtain ⟨kept, none⟩ := settled off
      subst off
      rw [silent rfl, none, kept, step]
      exact ⟨rfl, rfl⟩
    · rw [List.foldl_cons, run, step]
      simp only [inClear, List.foldl_cons, List.append_assoc]

/-- Without charset detection all entries are in the initial encoding. -/
theorem ofEntries_of_not_detect {options : LoadOptions E} (off : options.detectCharset = false)
    (entries : List Entry) :
    let texts := entries.map (Entry.texts options.encoding)
    ofEntries options entries =
      ⟨writtenMessages texts, writtenFields texts, options.encoding, []⟩ := by
  obtain ⟨encoding, noted, settled, run⟩ := (start options.encoding).foldl_addEntry false entries
  obtain ⟨kept, silent⟩ := settled rfl
  subst kept silent
  rw [inClear_of_not_detect] at run
  rw [ofEntries, off, run]
  rfl

end Contents

/-- Only entries under the same key matter to a look-up. -/
theorem find?_foldl_addMessage {messages : Messages} {texts : List (String × String)} {key : String}
    (other : ∀ p ∈ texts, idKey p.1 ≠ "" → idKey p.1 ≠ key) :
    (texts.foldl addMessage messages).find? key = messages.find? key := by
  induction texts generalizing messages with
  | nil => rfl
  | cons p texts ih =>
    obtain ⟨first, others⟩ := List.forall_mem_cons.1 other
    have step : (addMessage messages p).find? key = messages.find? key := by
      rw [addMessage]
      split
      · rfl
      · next named => rw [Table.find?_insert, if_neg (first named).symm]
    rw [List.foldl_cons, ih others, step]

theorem Contents.find?_empty_ofEntries (options : LoadOptions E) (entries : List Entry) :
    (ofEntries options entries).messages.find? "" = none := by
  obtain ⟨encoding, noted, -, run⟩ :=
    (start options.encoding).foldl_addEntry options.detectCharset entries
  rw [ofEntries, run]
  exact find?_foldl_addMessage fun _ _ named => named

/-- `after` continues `before` with the entries `later`. -/
structure Continues (detect : Bool) (before : Contents E) (later : List Entry)
    (after : Contents E) : Prop where
  resumed : after = later.foldl (Contents.addEntry detect) before
  /-- Every later entry is read in clear once, and adds what its texts say. -/
  messages : after.messages =
    (inClear detect before.encoding before.fields later).foldl addMessage before.messages
  fields : after.fields =
    (inClear detect before.encoding before.fields later).foldl addFields before.fields
  kept : ∀ key, (∀ p ∈ inClear detect before.encoding before.fields later, idKey p.1 ≠ key) →
    after.messages.find? key = before.messages.find? key
  warned : before.warnings <+: after.warnings
  /-- The encoding at the time holds up to the first header entry, and for that one too. -/
  upToHeader : ∀ n, (∀ e ∈ later.take n, idKey (e.texts before.encoding).1 ≠ "") →
    (inClear detect before.encoding before.fields later).take (n + 1) =
      (later.take (n + 1)).map (Entry.texts before.encoding)

theorem continues_foldl (detect : Bool) (before : Contents E) (later : List Entry) :
    Continues detect before later (later.foldl (Contents.addEntry detect) before) := by
  obtain ⟨encoding, noted, -, run⟩ := before.foldl_addEntry detect later
  exact {
    resumed := rfl
    messages := by rw [run]
    fields := by rw [run]
    kept := fun key other => by
      rw [run]
      exact find?_foldl_addMessage fun p member _ => other p member
    warned := by
      rw [run]
      exact List.prefix_append _ _
    upToHeader := fun n plain => take_inClear plain }

theorem Draft.length_bytes_le_append (order : Binary.ByteOrder) (revision : Revision)
    (first later : List Entry) :
    (ofEntries order revision first).bytes.length ≤
      (ofEntries order revision (first ++ later)).bytes.length := by
  rw [length_bytes_ofEntries, length_bytes_ofEntries, strings, strings, List.flatMap_append,
    List.length_append, List.length_append]
  omega

/-- For every byte order, supported revision, options and two entry lists whose image fits into
words. -/
theorem read_continues (order : Binary.ByteOrder) (revision : Revision) (options : LoadOptions E)
    (first later : List Entry) (major : revision.major ≤ 1) (minor : revision.minor < 0x10000)
    (fits : (Draft.ofEntries order revision (first ++ later)).bytes.length < 0x100000000) :
    ∃ before after : Contents E,
      read options (Draft.ofEntries order revision first).bytes = .ok ⟨order, revision, before⟩ ∧
      read options (Draft.ofEntries order revision (first ++ later)).bytes =
        .ok ⟨order, revision, after⟩ ∧
      Continues options.detectCharset before later after ∧
      (options.detectCharset = false →
        let texts := (first ++ later).map (Entry.texts options.encoding)
        after = ⟨writtenMessages texts, writtenFields texts, options.encoding, []⟩) := by
  have firstFits := Nat.lt_of_le_of_lt (Draft.length_bytes_le_append order revision first later) fits
  refine ⟨Contents.ofEntries options first, Contents.ofEntries options (first ++ later),
    read_ofEntries major minor firstFits, read_ofEntries major minor fits, ?_,
    fun off => Contents.ofEntries_of_not_detect off _⟩
  rw [Contents.ofEntries, Contents.ofEntries, List.foldl_append]
  exact continues_foldl _ _ _

def charsetEntry (label : String) : Entry :=
  .ofTexts ("", "Content-Type: text/plain; charset=" ++ label ++ "\n")

def mixedEntries : List Entry :=
  [⟨[0x62], [0xD4, 0xDE]⟩, charsetEntry "klingon", ⟨[0x63], [0xD4, 0xDE]⟩, charsetEntry "utf-8",
    .ofTexts ("d", "до")]

theorem read_continues_mixedEntries :
    (Draft.ofEntries .big ⟨1, 2⟩ ([charsetEntry "ISO-8859-5"] ++ mixedEntries)).bytes.length <
        0x100000000 ∧
      ∃ before after,
        read Cyrillic.options (Draft.ofEntries .big ⟨1, 2⟩ [charsetEntry "ISO-8859-5"]).bytes =
          .ok ⟨.big, ⟨1, 2⟩, before⟩ ∧
        before.encoding = .iso5 ∧ Continues true before mixedEntries after ∧
        ["b", "c", "d"].map after.messages.find? = [some ["до"], some ["до"], some ["до"]] ∧
        after.warnings = [.unresolvedCharset "klingon"] := by
  have fits : (Draft.ofEntries .big ⟨1, 2⟩
      ([charsetEntry "ISO-8859-5"] ++ mixedEntries)).bytes.length < 0x100000000 := by
    decide +kernel
  obtain ⟨before, after, first, both, continues, -⟩ :=
    read_continues .big ⟨1, 2⟩ Cyrillic.options [charsetEntry "ISO-8859-5"] mixedEntries
      (by decide) (by decide) fits
  have declared : (read Cyrillic.options
      (Draft.ofEntries .big ⟨1, 2⟩ [charsetEntry "ISO-8859-5"]).bytes).toOption.map
        (·.contents.encoding) = some .iso5 := by
    decide +kernel
  have told : (read Cyrillic.options
      (Draft.ofEntries .big ⟨1, 2⟩ ([charsetEntry "ISO-8859-5"] ++ mixedEntries)).bytes).toOption.map
        (fun image => (["b", "c", "d"].map image.contents.messages.find?, image.contents.warnings)) =
      some ([some ["до"], some ["до"], some ["до"]], [.unresolvedCharset "klingon"]) := by
    decide +kernel
  rw [first] at declared
  rw [both] at told
  obtain ⟨found, warned⟩ := Prod.mk.inj (Option.some.inj told)
  exact ⟨fits, before, after, first, Option.some.inj declared, continues, found, warned⟩

end Image
end MessageCatalog
