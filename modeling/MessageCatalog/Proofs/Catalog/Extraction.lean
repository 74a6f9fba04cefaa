import MessageCatalog.Proofs.Catalog.Answers
import MessageCatalog.Proofs.Catalog.Lookup
import MessageCatalog.Proofs.Template.StoreRuns

/-! From extracted messages to translated texts. Templates trim contexts and catalogs do not, so a
translation is found under the trimmed context only. -/
namespace MessageCatalog

/-- Marks are not blank, so trimming preserves them. -/
theorem addressable_trimmed_iff {context : Option String} {id : String} :
    Addressable (context.map Text.trimmed) id ↔ Addressable context id := by
  cases context with
  | none => rfl
  | some context =>
    have form : Text.isBlank formMark = false := by decide
    have mark : Text.isBlank contextMark = false := by decide
    simp only [Addressable, Option.map_some, Text.mem_trimmed_iff form, Text.mem_trimmed_iff mark]

namespace Plural

def formFor (n : Int64) : Nat := if n = 1 then 0 else 1

theorem Rule.index_twoForms (n : Int64) :
    ∃ index : Int32, twoForms.index n = .ok index ∧ index.toInt = formFor n := by
  by_cases one : n = 1
  · subst one
    exact ⟨0, rfl, rfl⟩
  · have differs : (n != 1) = true := bne_iff_ne.2 one
    refine ⟨1, ?_, ?_⟩
    · have value : twoForms.selector n = .ok (truth (n != 1)) := rfl
      rw [index, value, differs]
      rfl
    · simp [formFor, one]

theorem formFor_lt (n : Int64) : formFor n < 2 := by
  unfold formFor
  split <;> omega

end Plural

namespace Template

variable {calls : List Call} {key : Key}

def Entry.address (e : Entry) : Option String × String := (e.context, e.id)

theorem trimmed_of_mem_added (h : key ∈ added calls) :
    key.context.map Text.trimmed = key.context := by
  obtain ⟨context, id, -, rfl⟩ := exists_of_mem_added h
  exact congrArg Key.context (key_of_key context id)

theorem addresses_run (path : Files.Path) (heading : Heading) (calls : List Call) :
    ((new path heading).run calls).entries.map Entry.address =
      (added calls).map fun key => (key.context, key.id) := by
  rw [(keeps_run path heading calls).entries, List.map_map]
  refine List.map_congr_left fun key member => ?_
  obtain ⟨-, context, id⟩ := key_entryOf member
  exact Prod.ext context id

theorem nodup_addresses_run (path : Files.Path) (heading : Heading) (calls : List Call) :
    (((new path heading).run calls).entries.map Entry.address).Nodup := by
  rw [addresses_run]
  refine List.pairwise_map.2 ((nodup_eraseDups _).imp fun {one other} differ same => differ ?_)
  obtain ⟨context, id⟩ := Prod.mk.inj same
  cases one
  cases other
  cases context
  cases id
  rfl

theorem exists_key_of_mem_entries {path : Files.Path} {heading : Heading} {e : Entry}
    (h : e ∈ ((new path heading).run calls).entries) :
    ∃ key ∈ added calls, key.context = e.context ∧ key.id = e.id := by
  obtain ⟨key, known, rfl⟩ := mem_entries_run.1 h
  obtain ⟨-, context, id⟩ := key_entryOf known
  exact ⟨key, known, context.symm, id.symm⟩

/-- An entry is found under any spelling of its context. -/
theorem get?_run (path : Files.Path) (heading : Heading) {context : Option String} {id : String}
    (h : Key.of context id ∈ added calls) :
    ∃ e, ((new path heading).run calls).get? context id = some e ∧
      e ∈ ((new path heading).run calls).entries ∧
      e.context = context.map Text.trimmed ∧ e.id = id := by
  have keeps := keeps_run path heading calls
  obtain ⟨named, sameContext, sameId⟩ := key_entryOf h
  have member : entryOf calls (Key.of context id) ∈ ((new path heading).run calls).entries :=
    mem_entries_run.2 ⟨_, h, rfl⟩
  refine ⟨entryOf calls (Key.of context id), ?_, member, sameContext, sameId⟩
  exact (keeps.find?_eq_some_iff fun key inside => (key_entryOf inside).1).2 ⟨member, named⟩

end Template

/-- A translation with nonempty forms. -/
structure Message.Translates (m : Message) (e : Template.Entry) : Prop where
  context_eq : m.context = e.context
  id_eq : m.id = e.id
  forms_ne_nil : m.forms ≠ []
  filled : ∀ form ∈ m.forms, form ≠ "" ∧ formMark ∉ form.toList

theorem addresses_translated {entries : List Template.Entry} {translate : Template.Entry → Message}
    (translates : ∀ e ∈ entries, (translate e).Translates e) :
    (entries.map translate).map Message.address = entries.map Template.Entry.address := by
  rw [List.map_map]
  refine List.map_congr_left fun e member => ?_
  exact Prod.ext (translates e member).context_eq (translates e member).id_eq

theorem Message.Translates.writable {m : Message} {e : Template.Entry} (h : m.Translates e)
    (addressable : Addressable e.context e.id) (named : e.id ≠ "") : m.Writable where
  addressable := by
    rw [h.context_eq, h.id_eq]
    exact addressable
  named := fun _ => h.id_eq ▸ named
  forms_ne_nil := h.forms_ne_nil
  plain_forms := fun form member => (h.filled form member).2

theorem writable_translated {path : Files.Path} {heading : Template.Heading}
    {calls : List Template.Call} {translate : Template.Entry → Message}
    (addressable : ∀ key ∈ Template.added calls, Addressable key.context key.id)
    (translates : ∀ e ∈ ((Template.new path heading).run calls).entries,
      (translate e).Translates e) :
    ∀ m ∈ ((Template.new path heading).run calls).entries.map translate, m.Writable := by
  intro m member
  obtain ⟨e, inside, rfl⟩ := List.mem_map.1 member
  obtain ⟨key, known, context, id⟩ := Template.exists_key_of_mem_entries inside
  obtain ⟨_, _, named, rfl⟩ := Template.exists_of_mem_added known
  apply (translates e inside).writable
  · rw [← context, ← id]
    exact addressable _ known
  · rwa [← id]

namespace Catalog

open Plural Template

namespace State

/-- Look-ups return the form for the count. -/
structure Gives (s : State) (context : Option String) (id : String) (forms : List String) :
    Prop where
  singular : forms.head? = some (s.singular context id)
  plural : ∀ pluralId n, (given : formFor n < forms.length) →
    s.plural context id pluralId n = forms[formFor n]

/-- Look-ups return the texts of the caller. -/
structure Untold (s : State) (context : Option String) (id : String) : Prop where
  singular : s.singular context id = id
  plural : ∀ pluralId n, s.plural context id pluralId n = if n = 1 then id else pluralId

variable {s : State} {context : Option String} {id : String} {forms : List String}

theorem gives_of_find? (rule : s.rule = .twoForms)
    (found : s.messages.find? (messageKey context id) = some forms) (some_form : forms ≠ [])
    (filled : ∀ form ∈ forms, form ≠ "") : s.Gives context id forms where
  singular := by
    obtain ⟨form, rest, rfl⟩ := List.exists_cons_of_ne_nil some_form
    have stores : s.Stores context id 0 form := ⟨_, found, rfl, filled form List.mem_cons_self⟩
    exact congrArg some (singular_of_stores stores).symm
  plural := by
    intro pluralId n given
    obtain ⟨index, yields, value⟩ := Rule.index_twoForms n
    have few := formFor_lt n
    have stores : s.Stores context id index.toInt.toNat forms[formFor n] := by
      refine ⟨forms, found, ?_, filled _ (List.getElem_mem given)⟩
      rw [value]
      exact List.getElem?_eq_getElem given
    apply plural_of_tells
    refine ⟨index, rule ▸ yields, ?_, ?_, stores⟩
    · omega
    · rw [rule, value]
      exact Int.ofNat_lt.2 few

theorem untold_of_find? (absent : s.messages.find? (messageKey context id) = none) :
    s.Untold context id where
  singular := by
    rw [State.singular, absent]
  plural := fun _ _ => plural_of_lacks (.unknown absent)

end State

/-- For every run, translation, byte order, revision and locale whose image fits into words: a
message is found under its trimmed context, and only there. -/
theorem lookup_extracted {E : Type} [Charset.Encodings E] (readsUtf8 : Charset.ReadsUtf8 E)
    (path : Files.Path) (heading : Heading) (calls : List Template.Call)
    (translate : Entry → Message) (order : Binary.ByteOrder) (revision : Image.Revision)
    (locale : String) (addressable : ∀ key ∈ added calls, Addressable key.context key.id)
    (translates : ∀ e ∈ ((new path heading).run calls).entries, (translate e).Translates e)
    (major : revision.major ≤ 1) (minor : revision.minor < 0x10000)
    (fits : (Image.Draft.ofMessages order revision none
      (((new path heading).run calls).entries.map translate)).bytes.length < 0x100000000) :
    let t := (new path heading).run calls
    ∃ s, State.ofImage (E := E) .standard locale
        (Image.Draft.ofMessages order revision none (t.entries.map translate)).bytes = .ok s ∧
      ∀ context id, Key.of context id ∈ added calls →
        ∃ e, t.get? context id = some e ∧ e.context = context.map Text.trimmed ∧ e.id = id ∧
          s.Gives e.context e.id (translate e).forms ∧
          (context.map Text.trimmed = context → s.Gives context id (translate e).forms) ∧
          (context.map Text.trimmed ≠ context → s.Untold context id) := by
  intro t
  have addresses : (t.entries.map translate).map Message.address = t.entries.map Entry.address :=
    addresses_translated translates
  have distinct : ((t.entries.map translate).map Message.address).Nodup := by
    rw [addresses]
    exact nodup_addresses_run path heading calls
  have writable := writable_translated addressable translates
  let s := State.ofMessages none (t.entries.map translate) locale
  refine ⟨s, State.ofImage_ofMessages readsUtf8 writable major minor fits, fun context id known => ?_⟩
  obtain ⟨e, got, inside, sameContext, sameId⟩ := get?_run path heading known
  have translation := translates e inside
  have gives : s.Gives e.context e.id (translate e).forms := by
    refine State.gives_of_find? rfl ?_ translation.forms_ne_nil
      fun form member => (translation.filled form member).1
    rw [← translation.context_eq, ← translation.id_eq]
    exact State.find?_of_mem none locale writable distinct (List.mem_map.2 ⟨e, inside, rfl⟩)
  refine ⟨e, got, sameContext, sameId, gives, fun trimmed => ?_, fun untrimmed => ?_⟩
  · rwa [sameContext, sameId, trimmed] at gives
  · apply State.untold_of_find?
    apply State.find?_of_notMem none locale writable
    · exact addressable_trimmed_iff.1 (addressable _ known)
    · -- Every message stands under a context that has no blanks at its ends.
      rw [addresses, addresses_run]
      intro member
      obtain ⟨key, other, same⟩ := List.mem_map.1 member
      obtain ⟨rfl, -⟩ := Prod.mk.inj same
      exact untrimmed (trimmed_of_mem_added other)

def menuCalls : List Template.Call :=
  [.add (some " menu ") "Open" "menu.c:2", .addPlural none "a file" "files" "list.c:9",
    .add (some "menu") "Open" "bar.c:1"]

def menuTemplate : Template :=
  (new ⟨"app.pot"⟩ (.standard "2026-01-02 03:04+0000")).run menuCalls

def inGerman (e : Entry) : Message :=
  ⟨e.context, e.id, e.pluralId, if e.pluralId.isSome then ["eine", "viele"] else ["Öffnen"]⟩

def germanImage : List UInt8 :=
  (Image.Draft.ofMessages .little ⟨0, 0⟩ none (menuTemplate.entries.map inGerman)).bytes

theorem inGerman_translates (e : Entry) : (inGerman e).Translates e where
  context_eq := rfl
  id_eq := rfl
  forms_ne_nil := by
    unfold inGerman
    split <;> simp
  filled := by
    unfold inGerman
    split
    · show ∀ form ∈ ["eine", "viele"], form ≠ "" ∧ formMark ∉ form.toList
      decide
    · show ∀ form ∈ ["Öffnen"], form ≠ "" ∧ formMark ∉ form.toList
      decide

theorem lookup_extracted_menu :
    (∀ key ∈ added menuCalls, Addressable key.context key.id) ∧
      (∀ e ∈ menuTemplate.entries, (inGerman e).Translates e) ∧
      germanImage.length < 0x100000000 ∧
      ∃ s, State.ofImage Charset.Cyrillic.options "de" germanImage = .ok s ∧
        s.singular (some "menu") "Open" = "Öffnen" ∧ s.singular (some " menu ") "Open" = "Open" ∧
        s.plural none "a file" "files" 1 = "eine" ∧ s.plural none "a file" "files" 3 = "viele" := by
  have addressable : ∀ key ∈ added menuCalls, Addressable key.context key.id := by decide +kernel
  have translates : ∀ e ∈ menuTemplate.entries, (inGerman e).Translates e := fun e _ =>
    inGerman_translates e
  have fits : germanImage.length < 0x100000000 := by decide +kernel
  obtain ⟨s, loaded, found⟩ := lookup_extracted Charset.Cyrillic.readsUtf8 ⟨"app.pot"⟩
    (.standard "2026-01-02 03:04+0000") menuCalls inGerman .little ⟨0, 0⟩ "de" addressable
    translates (by decide) (by decide) fits
  obtain ⟨e, entry, -, -, -, given, -⟩ := found (some "menu") "Open" (by decide +kernel)
  have item : menuTemplate.get? (some "menu") "Open" =
      some ⟨some "menu", "Open", none, [], ["menu.c:2", "bar.c:1"], []⟩ := by
    decide +kernel
  cases entry.symm.trans item
  obtain ⟨_, -, -, -, -, -, spaced⟩ := found (some " menu ") "Open" (by decide +kernel)
  obtain ⟨e, entry, -, -, -, files, -⟩ := found none "a file" (by decide +kernel)
  have list : menuTemplate.get? none "a file" =
      some ⟨none, "a file", some "files", [], ["list.c:9"], []⟩ := by
    decide +kernel
  cases entry.symm.trans list
  refine ⟨addressable, translates, fits, s, loaded, ?_, ?_, ?_, ?_⟩
  · exact (Option.some.inj (given (by decide)).singular).symm
  · exact (spaced (by decide)).singular
  · exact (files rfl).plural "files" 1 (by decide)
  · exact (files rfl).plural "files" 3 (by decide)

/-- The entry is translated, but its context as given to the template finds the id. -/
theorem untold_under_blanks :
    menuCalls.head? = some (.add (some " menu ") "Open" "menu.c:2") ∧
      (menuTemplate.get? (some " menu ") "Open").map (inGerman · |>.forms) = some ["Öffnen"] ∧
      ((State.ofImage Charset.Cyrillic.options "de" germanImage).toOption.map
        fun s => s.singular (some " menu ") "Open") = some "Open" := by
  refine ⟨rfl, ?_, ?_⟩ <;> decide +kernel

end Catalog
end MessageCatalog
