import MessageCatalog.Catalog.Load
import MessageCatalog.Proofs.Image.RoundTrip
import MessageCatalog.Proofs.Plural.Staging
import MessageCatalog.Proofs.Plural.Written
import MessageCatalog.Proofs.Table

/-! Written messages are found under their own context and id and under no other, with the forms
chosen by the written rule. -/
namespace MessageCatalog

open Charset Charset.Encodings

variable {E : Type} [Encodings E]

/-- No mark makes the key ambiguous. -/
def Addressable (context : Option String) (id : String) : Prop :=
  formMark ∉ id.toList ∧
    match context with
    | some c => contextMark ∉ c.toList ∧ formMark ∉ c.toList
    | none => contextMark ∉ id.toList

instance : (context : Option String) → (id : String) → Decidable (Addressable context id)
  | some c, id => inferInstanceAs (Decidable
      (formMark ∉ id.toList ∧ contextMark ∉ c.toList ∧ formMark ∉ c.toList))
  | none, id => inferInstanceAs (Decidable (formMark ∉ id.toList ∧ contextMark ∉ id.toList))

theorem toList_contextKey (context id : String) :
    (contextKey context id).toList = context.toList ++ contextMark :: id.toList := by
  simp [contextKey]

theorem cut_contextKey {context : String} (id : String) (plain : contextMark ∉ context.toList) :
    Text.cut contextMark (contextKey context id).toList = some (context.toList, id.toList) :=
  Text.cut_eq_some_iff.2 ⟨toList_contextKey context id, plain⟩

/-- Keys determine context and id. -/
theorem messageKey_inj {context other : Option String} {id otherId : String}
    (one : Addressable context id) (two : Addressable other otherId)
    (same : messageKey context id = messageKey other otherId) :
    (context, id) = (other, otherId) := by
  -- A context shows in a key as its first mark, and an id without context has none.
  cases context with
  | none =>
    cases other with
    | none => exact congrArg (Prod.mk none) same
    | some d =>
      have marked := cut_contextKey otherId two.2.1
      rw [← show id = contextKey d otherId from same, Text.cut_eq_none_iff.2 one.2] at marked
      cases marked
  | some c =>
    have marked := cut_contextKey id one.2.1
    cases other with
    | none =>
      rw [show contextKey c id = otherId from same, Text.cut_eq_none_iff.2 two.2] at marked
      cases marked
    | some d =>
      rw [show contextKey c id = contextKey d otherId from same,
        cut_contextKey otherId two.2.1] at marked
      obtain ⟨contexts, ids⟩ := Prod.mk.inj (Option.some.inj marked)
      rw [String.toList_inj.1 contexts, String.toList_inj.1 ids]

theorem formMark_notMem_messageKey {context : Option String} {id : String}
    (addressable : Addressable context id) : formMark ∉ (messageKey context id).toList := by
  cases context with
  | none => exact addressable.1
  | some c =>
    rw [messageKey, toList_contextKey, List.mem_append, List.mem_cons]
    rintro (inContext | mark | inId)
    · exact addressable.2.2 inContext
    · cases mark
    · exact addressable.1 inId

theorem messageKey_ne_empty {context : Option String} {id : String}
    (named : context = none → id ≠ "") : messageKey context id ≠ "" := by
  cases context with
  | none => exact named rfl
  | some c =>
    intro empty
    have text := toList_contextKey c id
    rw [show contextKey c id = "" from empty] at text
    simp at text

structure Message where
  context : Option String
  id : String
  pluralId : Option String
  forms : List String
  deriving DecidableEq, Repr

namespace Message

def address (m : Message) : Option String × String := (m.context, m.id)

def key (m : Message) : String := messageKey m.context m.id

/-- Requirements on a message to be written. -/
structure Writable (m : Message) : Prop where
  addressable : Addressable m.context m.id
  named : m.context = none → m.id ≠ ""
  forms_ne_nil : m.forms ≠ []
  plain_forms : ∀ form ∈ m.forms, formMark ∉ form.toList

/-- The form at `index`, or `own` where it is missing or empty. -/
def formOr (m : Message) (index : Nat) (own : String) : String :=
  match m.forms[index]? with
  | some form => if form = "" then own else form
  | none => own

def counted (m : Message) (count : Nat) (rule : Plural.Expr) (pluralId : String) (n : Int64) :
    String :=
  let own := if n = 1 then m.id else pluralId
  match rule.evaluate n with
  | .error _ => own
  | .ok value =>
    let index := value.toInt32.toInt
    if 0 ≤ index ∧ index < count then m.formOr index.toNat own else own

def pair (m : Message) : String × String :=
  (match m.pluralId with
    | some pluralId => m.key ++ formMark.toString ++ pluralId
    | none => m.key,
   formMark.toString.intercalate m.forms)

theorem idKey_pair {m : Message} (writable : m.Writable) : idKey m.pair.1 = m.key := by
  have plain := formMark_notMem_messageKey writable.addressable
  unfold pair
  cases m.pluralId with
  | none => exact idKey_of_notMem plain
  | some pluralId => exact idKey_append plain

theorem idKey_pair_ne_empty {m : Message} (writable : m.Writable) : idKey m.pair.1 ≠ "" := by
  rw [idKey_pair writable]
  exact messageKey_ne_empty writable.named

theorem textForms_pair {m : Message} (writable : m.Writable) : textForms m.pair.2 = m.forms :=
  textForms_intercalate writable.forms_ne_nil writable.plain_forms

end Message

section pairs

variable {ms : List Message}

theorem foldl_addMessage_pair (writable : ∀ m ∈ ms, m.Writable) (t : Messages) :
    (ms.map Message.pair).foldl addMessage t = t.insertAll (ms.map fun m => (m.key, m.forms)) := by
  induction ms generalizing t with
  | nil => rfl
  | cons m ms ih =>
    obtain ⟨first, others⟩ := List.forall_mem_cons.1 writable
    have step : addMessage t m.pair = t.insert m.key m.forms := by
      rw [addMessage, if_neg (Message.idKey_pair_ne_empty first), Message.idKey_pair first,
        Message.textForms_pair first]
    rw [List.map_cons, List.foldl_cons, step]
    exact ih others _

theorem foldl_addFields_pair (writable : ∀ m ∈ ms, m.Writable) (f : Header.Fields) :
    (ms.map Message.pair).foldl addFields f = f := by
  induction ms with
  | nil => rfl
  | cons m ms ih =>
    obtain ⟨first, others⟩ := List.forall_mem_cons.1 writable
    rw [List.map_cons, List.foldl_cons, addFields, if_neg (Message.idKey_pair_ne_empty first)]
    exact ih others

end pairs

namespace Image

namespace Draft

def addMessage (d : Draft) (m : Message) : Draft :=
  match m.pluralId, m.context with
  | some pluralId, context => d.addPlural context m.id pluralId m.forms
  | none, some context =>
    d.addWithContext context m.id (formMark.toString.intercalate m.forms)
  | none, none => d.add m.id (formMark.toString.intercalate m.forms)

theorem addMessage_eq (d : Draft) (m : Message) : d.addMessage m = d.add m.pair.1 m.pair.2 := by
  obtain ⟨context, id, pluralId, forms⟩ := m
  cases pluralId with
  | some pluralId => rfl
  | none => cases context <;> rfl

def ruleHeader : Option (Nat × Plural.Expr) → List (String × String)
  | some (count, rule) => [("", Plural.headerText count rule)]
  | none => []

def ofMessages (order : Binary.ByteOrder) (revision : Revision)
    (rule : Option (Nat × Plural.Expr)) (ms : List Message) : Draft :=
  ms.foldl addMessage ((⟨order, revision, []⟩ : Draft).addAll (ruleHeader rule))

theorem ofMessages_eq (order : Binary.ByteOrder) (revision : Revision)
    (rule : Option (Nat × Plural.Expr)) (ms : List Message) :
    ofMessages order revision rule ms =
      (⟨order, revision, []⟩ : Draft).addAll (ruleHeader rule ++ ms.map Message.pair) := by
  have calls : addMessage = fun (d : Draft) (m : Message) => d.add m.pair.1 m.pair.2 :=
    funext fun d => funext fun m => addMessage_eq d m
  rw [ofMessages, calls, addAll, addAll, List.foldl_append, List.foldl_map]

end Draft

def ruleFields : Option (Nat × Plural.Expr) → Header.Fields
  | some (count, rule) => Table.empty.insert "Plural-Forms" (Plural.formsText count rule)
  | none => Table.empty

theorem value?_ruleFields (rule : Option (Nat × Plural.Expr)) :
    (ruleFields rule).value? "Content-Type" = none := by
  cases rule with
  | none => rfl
  | some r =>
    have exact : (ruleFields (some r)).find? "Content-Type" = none := by
      simp [ruleFields]
    have folded : "Plural-Forms".toList.map Char.toLower ≠ "Content-Type".toList.map Char.toLower :=
      by decide
    rw [Header.Fields.value?, exact]
    refine Option.map_eq_none_iff.2 (List.find?_eq_none.2 ?_)
    rintro e member same
    rw [List.mem_singleton.1 member] at same
    exact folded (beq_iff_eq.1 same)

theorem textForms_headerText (count : Nat) (rule : Plural.Expr) :
    textForms (Plural.headerText count rule) = [Plural.headerText count rule] := by
  have plain : formMark ∉ (Plural.headerText count rule).toList := fun member =>
    absurd (Plural.le_toNat_of_mem_headerText _ member) (by decide)
  have whole : formMark.toString.intercalate [Plural.headerText count rule] =
      Plural.headerText count rule := rfl
  have forms := textForms_intercalate (List.cons_ne_nil _ _) (List.forall_mem_singleton.2 plain)
  rwa [whole] at forms

namespace Contents

theorem addHeader_headerText (r : Nat × Plural.Expr) :
    (start (utf8 : E)).addHeader true (Plural.headerText r.1 r.2).toList =
      ⟨∅, ruleFields (some r), utf8, []⟩ := by
  have fields : Header.Fields.extend Table.empty
      (Header.Fields.parse (Plural.headerText r.1 r.2).toList) = ruleFields (some r) := by
    rw [Plural.parse_headerText]
    rfl
  simp only [addHeader, start, fields, followCharset, value?_ruleFields, if_true]

theorem addEntry_ruleHeader (readsUtf8 : ReadsUtf8 E) (rule : Option (Nat × Plural.Expr)) :
    ((Draft.ruleHeader rule).map Entry.ofTexts).foldl (addEntry true) (start (utf8 : E)) =
      ⟨∅, ruleFields rule, utf8, []⟩ := by
  cases rule with
  | none => rfl
  | some r =>
    have empty : idKey "" = "" := rfl
    rw [Draft.ruleHeader, List.map_singleton, List.foldl_cons, List.foldl_nil,
      addEntry_ofTexts readsUtf8 rfl, if_pos empty, textForms_headerText, List.headD_cons,
      addHeader_headerText]

theorem ofEntries_ofMessages (readsUtf8 : ReadsUtf8 E) (rule : Option (Nat × Plural.Expr))
    {ms : List Message} (writable : ∀ m ∈ ms, m.Writable) :
    ofEntries (E := E) .standard ((Draft.ruleHeader rule ++ ms.map Message.pair).map Entry.ofTexts) =
      ⟨Table.empty.insertAll (ms.map fun m => (m.key, m.forms)), ruleFields rule, utf8, []⟩ := by
  have keyed : ∀ p ∈ ms.map Message.pair, idKey p.1 = "" → true = false := by
    intro p member empty
    obtain ⟨m, written, rfl⟩ := List.mem_map.1 member
    exact absurd empty (Message.idKey_pair_ne_empty (writable m written))
  calc ofEntries (E := E) .standard ((Draft.ruleHeader rule ++ ms.map Message.pair).map Entry.ofTexts)
      = ((ms.map Message.pair).map Entry.ofTexts).foldl (addEntry true)
          (((Draft.ruleHeader rule).map Entry.ofTexts).foldl (addEntry true) (start (utf8 : E))) := by
        rw [ofEntries, List.map_append, List.foldl_append]
        rfl
    _ = ((ms.map Message.pair).map Entry.ofTexts).foldl (addEntry true)
          ⟨∅, ruleFields rule, utf8, []⟩ := by
        rw [addEntry_ruleHeader readsUtf8]
    _ = ⟨Table.empty.insertAll (ms.map fun m => (m.key, m.forms)), ruleFields rule, utf8, []⟩ := by
        rw [foldl_ofTexts readsUtf8 rfl keyed, foldl_addMessage_pair writable,
          foldl_addFields_pair writable]
        rfl

end Contents
end Image

namespace Catalog

open Image

/-- The written rule, or the default if its count exceeds 64 bits. -/
def ruleInForce : Option (Nat × Plural.Expr) → Nat × Plural.Expr
  | some (count, rule) =>
    if count < UInt64.size then (count, rule) else (2, .binary .ne .count (.number 1))
  | none => (2, .binary .ne .count (.number 1))

namespace State

theorem getD_form? (m : Message) (index : Nat) (own : String) :
    (form? m.forms index).getD own = m.formOr index own := by
  unfold form? Message.formOr
  cases m.forms[index]? with
  | none => rfl
  | some form =>
    by_cases empty : form = ""
    · simp [Option.filter, empty]
    · simp [Option.filter, empty]

theorem singular_eq_formOr {s : State} {m : Message}
    (found : s.messages.find? m.key = some m.forms) :
    s.singular m.context m.id = m.formOr 0 m.id := by
  have stored : s.messages.find? (messageKey m.context m.id) = some m.forms := found
  rw [singular, stored]
  exact getD_form? m 0 m.id

theorem plural_eq_counted {s : State} {m : Message} {count : Nat} {rule : Plural.Expr}
    (found : s.messages.find? m.key = some m.forms) (forms : s.rule.forms.toNat = count)
    (selects : s.rule.selector = rule.evaluate) (pluralId : String) (n : Int64) :
    s.plural m.context m.id pluralId n = m.counted count rule pluralId n := by
  have stored : s.messages.find? (messageKey m.context m.id) = some m.forms := found
  rw [plural, stored, Message.counted]
  cases value : rule.evaluate n with
  | error fault =>
    have index : s.rule.index n = .error fault := by
      rw [Plural.Rule.index, selects, value]
      rfl
    simp only [chosen?, index]
    rfl
  | ok v =>
    have index : s.rule.index n = .ok v.toInt32 := by
      rw [Plural.Rule.index, selects, value]
      rfl
    have bound : 0 ≤ v.toInt32.toInt ∧ v.toInt32.toInt.toNat < s.rule.forms.toNat ↔
        0 ≤ v.toInt32.toInt ∧ v.toInt32.toInt < count := by
      omega
    simp only [chosen?, index, bound]
    split
    · exact getD_form? m _ _
    · rfl

theorem ruleOf_ruleFields {rule : Option (Nat × Plural.Expr)}
    (reads : ∀ r ∈ rule, Plural.parse r.2.render = .ok r.2) :
    (ruleOf (ruleFields rule) .compiled).1.forms.toNat = (ruleInForce rule).1 ∧
      (ruleOf (ruleFields rule) .compiled).1.selector = (ruleInForce rule).2.evaluate := by
  cases rule with
  | none => exact ⟨rfl, rfl⟩
  | some r =>
    obtain ⟨count, e⟩ := r
    have value : (ruleFields (some (count, e))).value? "Plural-Forms" =
        some (Plural.formsText count e) := by
      rw [Header.Fields.value?, ruleFields, Table.find?_insert, if_pos rfl]
    have read := Plural.parseForms_formsText count (reads (count, e) rfl)
    rw [ruleOf, value, ruleInForce]
    by_cases small : count < UInt64.size
    · rw [if_pos small] at read
      have rule : Plural.Rule.ofHeader (Plural.formsText count e) .compiled =
          .ok ⟨UInt64.ofNat count, e, .compiled⟩ := bind_of_ok read
      simp only [rule, if_pos small]
      exact ⟨UInt64.toNat_ofNat_of_lt small, Plural.Expr.staged_eq e⟩
    · rw [if_neg small] at read
      have fault : Plural.Rule.ofHeader (Plural.formsText count e) .compiled = .error _ :=
        bind_of_error read
      simp only [fault, if_neg small]
      exact ⟨rfl, rfl⟩

def ofMessages (rule : Option (Nat × Plural.Expr)) (ms : List Message) (locale : String) : State :=
  .ofContents (E := Unit)
    ⟨Table.empty.insertAll (ms.map fun m => (m.key, m.forms)), ruleFields rule, (), []⟩ locale
    .compiled

section ofMessages

variable {rule : Option (Nat × Plural.Expr)} {ms : List Message} {locale : String}

theorem ofImage_ofMessages (readsUtf8 : ReadsUtf8 E) {order : Binary.ByteOrder} {revision : Revision}
    (writable : ∀ m ∈ ms, m.Writable) (major : revision.major ≤ 1)
    (minor : revision.minor < 0x10000)
    (fits : (Draft.ofMessages order revision rule ms).bytes.length < 0x100000000) :
    ofImage (E := E) .standard locale (Draft.ofMessages order revision rule ms).bytes =
      .ok (ofMessages rule ms locale) := by
  rw [Draft.ofMessages_eq] at fits ⊢
  refine (bind_of_ok (read_addAll major minor fits)).trans ?_
  rw [Contents.ofEntries_ofMessages readsUtf8 rule writable]
  rfl

/-- Messages with distinct contexts or ids have distinct keys. -/
theorem keys_nodup (writable : ∀ m ∈ ms, m.Writable) (distinct : (ms.map Message.address).Nodup) :
    (ms.map Message.key).Nodup := by
  refine List.pairwise_map.2 (List.Pairwise.imp_of_mem ?_ (List.pairwise_map.1 distinct))
  intro a b inA inB differ same
  exact differ (messageKey_inj (writable a inA).addressable (writable b inB).addressable same)

theorem find?_of_mem (rule : Option (Nat × Plural.Expr)) (locale : String) {m : Message}
    (writable : ∀ m ∈ ms, m.Writable)
    (distinct : (ms.map Message.address).Nodup) (member : m ∈ ms) :
    (ofMessages rule ms locale).messages.find? m.key = some m.forms := by
  refine Table.find?_insertAll_of_mem ?_ (List.mem_map.2 ⟨m, member, rfl⟩)
  rw [List.map_map]
  exact keys_nodup writable distinct

theorem find?_of_notMem (rule : Option (Nat × Plural.Expr)) (locale : String)
    {context : Option String} {id : String}
    (writable : ∀ m ∈ ms, m.Writable) (addressable : Addressable context id)
    (absent : (context, id) ∉ ms.map Message.address) :
    (ofMessages rule ms locale).messages.find? (messageKey context id) = none := by
  refine Table.find?_insertAll_of_notMem fun member => absent ?_
  rw [List.map_map] at member
  obtain ⟨m, written, same⟩ := List.mem_map.1 member
  rw [← messageKey_inj (writable m written).addressable addressable same]
  exact List.mem_map.2 ⟨m, written, rfl⟩

end ofMessages

end State

/-- For every byte order, supported revision, locale, rule and message list whose image fits into
words. -/
theorem lookup_written (readsUtf8 : ReadsUtf8 E) (order : Binary.ByteOrder) (revision : Revision)
    (locale : String) (rule : Option (Nat × Plural.Expr)) (ms : List Message)
    (reads : ∀ r ∈ rule, Plural.parse r.2.render = .ok r.2)
    (writable : ∀ m ∈ ms, m.Writable) (distinct : (ms.map Message.address).Nodup)
    (major : revision.major ≤ 1) (minor : revision.minor < 0x10000)
    (fits : (Draft.ofMessages order revision rule ms).bytes.length < 0x100000000) :
    ∃ s, State.ofImage (E := E) .standard locale (Draft.ofMessages order revision rule ms).bytes =
        .ok s ∧
      (∀ m ∈ ms, s.singular m.context m.id = m.formOr 0 m.id ∧
        ∀ pluralId n, s.plural m.context m.id pluralId n =
          m.counted (ruleInForce rule).1 (ruleInForce rule).2 pluralId n) ∧
      ∀ context id, Addressable context id → (context, id) ∉ ms.map Message.address →
        s.singular context id = id ∧
          ∀ pluralId n, s.plural context id pluralId n = if n = 1 then id else pluralId := by
  obtain ⟨forms, selects⟩ := State.ruleOf_ruleFields reads
  refine ⟨_, State.ofImage_ofMessages readsUtf8 writable major minor fits, ?_, ?_⟩
  · intro m member
    have found := State.find?_of_mem rule locale writable distinct member
    exact ⟨State.singular_eq_formOr found, State.plural_eq_counted found forms selects⟩
  · intro context id addressable absent
    have missing := State.find?_of_notMem rule locale writable addressable absent
    constructor
    · rw [State.singular, missing]
    · intro pluralId n
      rw [State.plural, missing]

def letters : Message := ⟨none, "a", some "as", ["x", "y", "z"]⟩

def untold : Message := ⟨some "b", "", none, [""]⟩

theorem letters_writable : letters.Writable where
  addressable := by decide
  named := by decide
  forms_ne_nil := by decide
  plain_forms := by decide

theorem untold_writable : untold.Writable where
  addressable := by decide
  named := by decide
  forms_ne_nil := by decide
  plain_forms := by decide

theorem lookup_written_letters :
    (∀ r ∈ some (3, Plural.Expr.count), Plural.parse r.2.render = .ok r.2) ∧
      (∀ m ∈ [letters, untold], m.Writable) ∧ ([letters, untold].map Message.address).Nodup ∧
      (Draft.ofMessages .big ⟨1, 2⟩ (some (3, .count)) [letters, untold]).bytes.length <
        0x100000000 ∧
      ∃ s, State.ofImage Cyrillic.options "de"
          (Draft.ofMessages .big ⟨1, 2⟩ (some (3, .count)) [letters, untold]).bytes = .ok s ∧
        s.plural none "a" "as" 2 = "z" ∧ s.singular (some "b") "" = "" ∧
        s.plural (some "b") "a" "as" 2 = "as" := by
  have reads : ∀ r ∈ some (3, Plural.Expr.count), Plural.parse r.2.render = .ok r.2 := by
    intro r written
    cases written
    rfl
  have writable : ∀ m ∈ [letters, untold], m.Writable := by
    simp [letters_writable, untold_writable]
  have distinct : ([letters, untold].map Message.address).Nodup := by decide
  have fits : (Draft.ofMessages .big ⟨1, 2⟩ (some (3, .count)) [letters, untold]).bytes.length <
      0x100000000 := by
    decide +kernel
  obtain ⟨s, loaded, found, missing⟩ := lookup_written Cyrillic.readsUtf8 .big ⟨1, 2⟩ "de"
    (some (3, .count)) [letters, untold] reads writable distinct (by decide) (by decide) fits
  refine ⟨reads, writable, distinct, fits, s, loaded, ?_, ?_, ?_⟩
  · have three := (found letters (by simp)).2 "as" 2
    exact three.trans (by decide +kernel)
  · exact (found untold (by simp)).1
  · exact (missing (some "b") "a" (by decide) (by decide)).2 "as" 2

/-- A count of 2^64 or more does not govern look-ups. -/
theorem lookup_beyond_words :
    Plural.parse Plural.Expr.count.render = .ok .count ∧ letters.Writable ∧
      (Draft.ofMessages .little ⟨0, 0⟩ (some (UInt64.size, .count)) [letters]).bytes.length <
        0x100000000 ∧
      ((State.ofImage Cyrillic.options ""
          (Draft.ofMessages .little ⟨0, 0⟩ (some (UInt64.size, .count)) [letters]).bytes).toOption.map
        fun s => s.plural none "a" "as" 2) = some "y" ∧
      letters.counted UInt64.size .count "as" 2 = "z" :=
  ⟨rfl, letters_writable, by decide +kernel, by decide +kernel, by decide +kernel⟩

end Catalog
end MessageCatalog
