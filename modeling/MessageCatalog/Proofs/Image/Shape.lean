import MessageCatalog.Proofs.Header.Statements
import MessageCatalog.Proofs.Image.Acceptance
import MessageCatalog.Proofs.Image.Continuation

/-! The shape of contents under any decoding: keys are nonempty, forms exist, no mark remains, and
every field fits on a line. Entries without key contribute fields only. -/
namespace MessageCatalog

theorem formMark_notMem_idKey (id : String) : formMark ∉ (idKey id).toList := by
  intro member
  rw [idKey, String.toList_ofList] at member
  simpa using List.mem_takeWhile_imp member

theorem textForms_ne_nil (text : String) : textForms text ≠ [] := by
  simp [textForms]

theorem formMark_notMem_of_mem_textForms {text form : String} (member : form ∈ textForms text) :
    formMark ∉ form.toList := by
  obtain ⟨part, inText, rfl⟩ := List.mem_map.1 member
  rw [String.toList_ofList]
  exact Text.notMem_of_mem_splitOn inText

structure Messages.WellShaped (messages : Messages) : Prop where
  key : ∀ key forms, messages.find? key = some forms → key ≠ "" ∧ formMark ∉ key.toList
  forms : ∀ key forms, messages.find? key = some forms →
    forms ≠ [] ∧ ∀ form ∈ forms, formMark ∉ form.toList

/-- Empty key: the id is empty or starts with a mark. -/
def IsHeading (p : String × String) : Prop := p.1 = "" ∨ p.1.toList.head? = some formMark

instance (p : String × String) : Decidable (IsHeading p) :=
  inferInstanceAs (Decidable (_ ∨ _))

theorem idKey_eq_empty_iff_isHeading {p : String × String} : idKey p.1 = "" ↔ IsHeading p := by
  rw [idKey, String.ofList_eq_empty_iff, List.takeWhile_eq_nil_iff, IsHeading]
  cases chars : p.1.toList with
  | nil => simp [String.toList_eq_nil_iff.1 chars]
  | cons c rest =>
    have filled : p.1 ≠ "" := by
      intro empty
      simp [empty] at chars
    simp [filled]

section Texts

variable {messages : Messages} {texts : List (String × String)}

theorem Messages.WellShaped.addMessage (shaped : messages.WellShaped) (p : String × String) :
    (addMessage messages p).WellShaped := by
  -- The entry found is that of the text just added, or one that stood there before.
  have found_cases (key : String) (forms : List String)
      (found : (MessageCatalog.addMessage messages p).find? key = some forms) :
      (idKey p.1 ≠ "" ∧ key = idKey p.1 ∧ forms = textForms p.2) ∨
        messages.find? key = some forms := by
    unfold MessageCatalog.addMessage at found
    split at found
    · exact .inr found
    · next named =>
      rw [Table.find?_insert] at found
      split at found
      · next same => exact .inl ⟨named, same, (Option.some.inj found).symm⟩
      · exact .inr found
  constructor
  · intro key forms found
    rcases found_cases key forms found with ⟨named, rfl, -⟩ | before
    · exact ⟨named, formMark_notMem_idKey p.1⟩
    · exact shaped.key key forms before
  · intro key forms found
    rcases found_cases key forms found with ⟨-, -, rfl⟩ | before
    · exact ⟨textForms_ne_nil p.2, fun form => formMark_notMem_of_mem_textForms⟩
    · exact shaped.forms key forms before

theorem Header.Fields.WellShaped.addFields {fields : Header.Fields} (shaped : fields.WellShaped)
    (p : String × String) : (addFields fields p).WellShaped := by
  unfold MessageCatalog.addFields
  split
  · exact shaped.extend (Header.Fields.wellShaped_parse _)
  · exact shaped

/-- The texts are arbitrary, so the decoder is irrelevant. -/
theorem wellShaped_writtenMessages (texts : List (String × String)) :
    (writtenMessages texts).WellShaped := by
  have empty : Messages.WellShaped ∅ := ⟨nofun, nofun⟩
  exact List.foldlRecOn texts addMessage empty fun _ shaped p _ => shaped.addMessage p

theorem wellShaped_writtenFields (texts : List (String × String)) :
    (writtenFields texts).WellShaped :=
  List.foldlRecOn texts addFields Header.Fields.wellShaped_empty
    fun _ shaped p _ => shaped.addFields p

/-- Only keyed entries add messages. -/
theorem writtenMessages_filter :
    writtenMessages (texts.filter fun p => ¬IsHeading p) = writtenMessages texts := by
  have skipped : (fun (t : Messages) p => if ¬IsHeading p then addMessage t p else t) =
      addMessage := by
    funext t p
    by_cases heading : IsHeading p
    · simp [heading, addMessage, idKey_eq_empty_iff_isHeading]
    · simp [heading]
  simp only [writtenMessages, List.foldl_filter, decide_eq_true_eq, skipped]

/-- Only header entries add fields. -/
theorem writtenFields_filter :
    writtenFields (texts.filter fun p => IsHeading p) = writtenFields texts := by
  have skipped : (fun (f : Header.Fields) p => if IsHeading p then addFields f p else f) =
      addFields := by
    funext f p
    by_cases heading : IsHeading p
    · simp [heading]
    · simp [heading, addFields, idKey_eq_empty_iff_isHeading]
  simp only [writtenFields, List.foldl_filter, decide_eq_true_eq, skipped]

end Texts

namespace Image

open Charset

variable {E : Type} [Encodings E]

namespace Contents

theorem warnings_followCharset (c : Contents E) :
    c.followCharset.warnings = c.warnings ∨
      ∃ label, c.followCharset.warnings = c.warnings ++ [.unresolvedCharset label] := by
  unfold followCharset
  split
  · exact .inl rfl
  · split
    · exact .inr ⟨_, rfl⟩
    · split
      · exact .inl rfl
      · split
        · exact .inr ⟨_, rfl⟩
        · exact .inl rfl

theorem warnings_addEntry (c : Contents E) (detect : Bool) (e : Entry) :
    (c.addEntry detect e).warnings = c.warnings ∨
      ∃ label, (c.addEntry detect e).warnings = c.warnings ++ [.unresolvedCharset label] := by
  rw [addEntry_eq]
  split
  · cases detect with
    | false =>
      rw [addHeader_false]
      exact .inl rfl
    | true =>
      rw [addHeader_true]
      exact warnings_followCharset _
  · exact .inl rfl

/-- Only unresolved charsets are noted. -/
def NotesCharsets (c : Contents E) : Prop :=
  ∀ problem ∈ c.warnings, ∃ label, problem = .unresolvedCharset label

theorem NotesCharsets.addEntry {c : Contents E} (notes : c.NotesCharsets) (detect : Bool)
    (e : Entry) : (c.addEntry detect e).NotesCharsets := by
  intro problem noted
  rcases c.warnings_addEntry detect e with same | ⟨label, more⟩
  · rw [same] at noted
    exact notes problem noted
  · rw [more, List.mem_append, List.mem_singleton] at noted
    rcases noted with before | last
    · exact notes problem before
    · exact ⟨label, last⟩

theorem notesCharsets_ofEntries (options : LoadOptions E) (entries : List Entry) :
    (ofEntries options entries).NotesCharsets :=
  List.foldlRecOn entries _ nofun fun _ notes e _ => notes.addEntry options.detectCharset e

/-- Contents are determined by the texts, each in the encoding then in force. -/
theorem ofEntries_inClear (options : LoadOptions E) (entries : List Entry) :
    let texts := inClear options.detectCharset options.encoding Table.empty entries
    (ofEntries options entries).messages = writtenMessages texts ∧
      (ofEntries options entries).fields = writtenFields texts := by
  obtain ⟨encoding, noted, -, run⟩ :=
    (start options.encoding).foldl_addEntry options.detectCharset entries
  rw [ofEntries, run]
  exact ⟨rfl, rfl⟩

end Contents

theorem contents_of_read {options : LoadOptions E} {data : List UInt8} {image : Reading E}
    (loaded : read options data = .ok image) :
    image.contents = Contents.ofEntries options (entriesIn image.order data) := by
  have ends := ends_read options data
  rw [loaded] at ends
  cases ends
  rfl

/-- For all readable data and all options. -/
theorem shape_of_read (options : LoadOptions E) (data : List UInt8) (image : Reading E)
    (loaded : read options data = .ok image) :
    image.contents.messages.WellShaped ∧ image.contents.fields.WellShaped ∧
      image.contents.NotesCharsets ∧
      let texts := inClear options.detectCharset options.encoding Table.empty
        (entriesIn image.order data)
      image.contents.messages = writtenMessages (texts.filter fun p => ¬IsHeading p) ∧
        image.contents.fields = writtenFields (texts.filter fun p => IsHeading p) := by
  rw [contents_of_read loaded]
  obtain ⟨messages, fields⟩ := Contents.ofEntries_inClear options (entriesIn image.order data)
  refine ⟨?_, ?_, Contents.notesCharsets_ofEntries _ _, ?_, ?_⟩
  · rw [messages]
    exact wellShaped_writtenMessages _
  · rw [fields]
    exact wellShaped_writtenFields _
  · rw [messages, writtenMessages_filter]
  · rw [fields, writtenFields_filter]

def headedEntries : List Entry :=
  [.ofTexts ("", " A : 1\r: x\nContent-Type: text/plain; charset=klingon\x00D: 4"),
    .ofTexts ("\x00a", "B:\t2:3 \n"), .ofTexts ("b\x00bs", "x\x00")]

theorem shape_of_read_headedEntries :
    ∃ image, read Cyrillic.options (Draft.ofEntries .big ⟨0, 0⟩ headedEntries).bytes = .ok image ∧
      image.contents.messages.WellShaped ∧ image.contents.fields.WellShaped ∧
      image.contents.NotesCharsets ∧
      image.contents.messages = Table.empty.insert "b" ["x", ""] ∧
      image.contents.fields.entries =
        [("A", "1"), ("B", "2:3"), ("Content-Type", "text/plain; charset=klingon")] ∧
      image.contents.warnings = [.unresolvedCharset "klingon", .unresolvedCharset "klingon"] := by
  have fits : (Draft.ofEntries .big ⟨0, 0⟩ headedEntries).bytes.length < 0x100000000 := by
    decide +kernel
  have loaded : read Cyrillic.options (Draft.ofEntries .big ⟨0, 0⟩ headedEntries).bytes =
      .ok ⟨.big, ⟨0, 0⟩, Contents.ofEntries Cyrillic.options headedEntries⟩ :=
    read_ofEntries (by decide) (by decide) fits
  have said : Contents.ofEntries Cyrillic.options headedEntries =
      ⟨Table.empty.insert "b" ["x", ""],
        Table.empty.insertAll
          [("A", "1"), ("B", "2:3"), ("Content-Type", "text/plain; charset=klingon")],
        .utf8, [.unresolvedCharset "klingon", .unresolvedCharset "klingon"]⟩ := by
    decide +kernel
  rw [said] at loaded
  obtain ⟨messages, fields, notes, -⟩ := shape_of_read Cyrillic.options _ _ loaded
  exact ⟨_, loaded, messages, fields, notes, rfl, rfl, rfl⟩

end Image
end MessageCatalog
