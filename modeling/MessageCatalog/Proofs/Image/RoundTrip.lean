import Mathlib.Data.List.TakeWhile
import MessageCatalog.Image.Contents
import MessageCatalog.Proofs.Charset.Cyrillic
import MessageCatalog.Proofs.Image.Framing

/-! Reading inverts writing: byte order, revision, and the messages and fields of the written pairs.
The encodings need only decode UTF-8. -/
namespace MessageCatalog

def idKey (id : String) : String := String.ofList (id.toList.takeWhile (· != formMark))

def textForms (text : String) : List String := (text.toList.splitOn formMark).map String.ofList

/-- Later pairs replace earlier ones; a pair without key is a header. -/
def addMessage (t : Messages) (p : String × String) : Messages :=
  if idKey p.1 = "" then t else t.insert (idKey p.1) (textForms p.2)

def addFields (f : Header.Fields) (p : String × String) : Header.Fields :=
  if idKey p.1 = "" then f.extend (Header.Fields.parse ((textForms p.2).headD "").toList) else f

def writtenMessages (pairs : List (String × String)) : Messages := pairs.foldl addMessage ∅

def writtenFields (pairs : List (String × String)) : Header.Fields :=
  pairs.foldl addFields Table.empty

theorem idKey_eq_empty_iff {id : String} :
    (id.toList.takeWhile (· != formMark)).isEmpty = true ↔ idKey id = "" := by
  rw [List.isEmpty_iff, idKey, String.ofList_eq_empty_iff]

theorem toList_headD_textForms (text : String) :
    ((textForms text).headD "").toList = (text.toList.splitOn formMark).headD [] := by
  unfold textForms
  cases text.toList.splitOn formMark with
  | nil => rfl
  | cons form forms => exact String.toList_ofList

theorem idKey_append {key rest : String} (plain : formMark ∉ key.toList) :
    idKey (key ++ formMark.toString ++ rest) = key := by
  have other : ∀ c ∈ key.toList, (c != formMark) = true := fun c member =>
    bne_iff_ne.2 fun mark => plain (mark ▸ member)
  have text : (key ++ formMark.toString ++ rest).toList =
      key.toList ++ formMark :: rest.toList := by
    simp
  rw [idKey, text, List.takeWhile_append_of_pos other, List.takeWhile_cons_of_neg (by simp),
    List.append_nil, String.ofList_toList]

theorem idKey_of_notMem {id : String} (plain : formMark ∉ id.toList) : idKey id = id := by
  have whole : id.toList.takeWhile (· != formMark) = id.toList :=
    List.takeWhile_eq_self_iff.2 fun c member => bne_iff_ne.2 fun mark => plain (mark ▸ member)
  rw [idKey, whole, String.ofList_toList]

theorem textForms_intercalate {forms : List String} (some : forms ≠ [])
    (plain : ∀ form ∈ forms, formMark ∉ form.toList) :
    textForms (formMark.toString.intercalate forms) = forms := by
  have parts : (formMark.toString.intercalate forms).toList.splitOn formMark =
      forms.map String.toList := by
    have mark : formMark.toString.toList = [formMark] := rfl
    rw [String.toList_intercalate, mark]
    refine List.splitOn_intercalate formMark (fun text member => ?_) (by simpa using some)
    obtain ⟨form, written, rfl⟩ := List.mem_map.1 member
    exact plain form written
  have back : String.ofList ∘ String.toList = id := funext fun _ => String.ofList_toList
  rw [textForms, parts, List.map_map, back, List.map_id]

namespace Image

open Charset Charset.Encodings

variable {E : Type} [Encodings E]

def Draft.addAll (d : Draft) (pairs : List (String × String)) : Draft :=
  pairs.foldl (fun d p => d.add p.1 p.2) d

def Entry.ofTexts (p : String × String) : Entry :=
  ⟨Utf8.encode p.1.toList, Utf8.encode p.2.toList⟩

def Entry.texts (encoding : E) (e : Entry) : String × String :=
  (String.ofList (decode encoding e.id), String.ofList (decode encoding e.text))

theorem Entry.texts_ofTexts (reads : ReadsUtf8 E) (p : String × String) :
    (ofTexts p).texts (utf8 : E) = p := by
  have back (text : String) :
      String.ofList (decode (utf8 : E) (Utf8.encode text.toList)) = text := by
    rw [reads, String.ofList_toList]
  exact Prod.ext (back p.1) (back p.2)

theorem Draft.addAll_eq (d : Draft) (pairs : List (String × String)) :
    d.addAll pairs = { d with entries := d.entries ++ pairs.map Entry.ofTexts } := by
  rw [← d.addEntries_eq, addEntries, List.foldl_map]
  rfl

namespace Contents

variable {c : Contents E} {detect : Bool} {p : String × String}

theorem addEntry_eq (c : Contents E) (detect : Bool) (e : Entry) :
    c.addEntry detect e =
      if idKey (e.texts c.encoding).1 = "" then
        c.addHeader detect ((textForms (e.texts c.encoding).2).headD "").toList
      else { c with messages := addMessage c.messages (e.texts c.encoding) } := by
  have id : (e.texts c.encoding).1.toList = decode c.encoding e.id := String.toList_ofList
  have text : (e.texts c.encoding).2.toList = decode c.encoding e.text := String.toList_ofList
  rw [addEntry, toList_headD_textForms, ← id, ← text]
  by_cases header : idKey (e.texts c.encoding).1 = ""
  · rw [if_pos (idKey_eq_empty_iff.2 header), if_pos header]
  · rw [if_neg (header ∘ idKey_eq_empty_iff.1), if_neg header, addMessage, if_neg header]
    rfl

theorem addEntry_ofTexts (reads : ReadsUtf8 E) (unchanged : c.encoding = utf8) :
    c.addEntry detect (Entry.ofTexts p) =
      if idKey p.1 = "" then c.addHeader detect ((textForms p.2).headD "").toList
      else { c with messages := addMessage c.messages p } := by
  rw [addEntry_eq, unchanged, Entry.texts_ofTexts reads]

theorem addHeader_false (c : Contents E) (text : List Char) :
    c.addHeader false text =
      { c with fields := c.fields.extend (Header.Fields.parse text) } := rfl

/-- A run over written pairs, none of whose headers declares a charset. -/
theorem foldl_ofTexts {pairs : List (String × String)} (reads : ReadsUtf8 E)
    (unchanged : c.encoding = utf8)
    (plain : ∀ p ∈ pairs, idKey p.1 = "" → detect = false) :
    (pairs.map Entry.ofTexts).foldl (addEntry detect) c =
      { c with
        messages := pairs.foldl addMessage c.messages
        fields := pairs.foldl addFields c.fields } := by
  induction pairs generalizing c with
  | nil => rfl
  | cons p pairs ih =>
    obtain ⟨first, others⟩ := List.forall_mem_cons.1 plain
    rw [List.map_cons, List.foldl_cons, addEntry_ofTexts reads unchanged, List.foldl_cons,
      List.foldl_cons]
    by_cases header : idKey p.1 = ""
    · have off := first header
      subst off
      rw [if_pos header, addHeader_false]
      refine (ih ?_ others).trans ?_
      · exact unchanged
      · simp only [addMessage, addFields, if_pos header]
    · rw [if_neg header]
      refine (ih ?_ others).trans ?_
      · exact unchanged
      · simp only [addFields, if_neg header]

end Contents

theorem read_addAll {order : Binary.ByteOrder} {revision : Revision} {options : LoadOptions E}
    {pairs : List (String × String)} (major : revision.major ≤ 1)
    (minor : revision.minor < 0x10000)
    (fits : ((⟨order, revision, []⟩ : Draft).addAll pairs).bytes.length < 0x100000000) :
    read options ((⟨order, revision, []⟩ : Draft).addAll pairs).bytes =
      .ok ⟨order, revision, Contents.ofEntries options (pairs.map Entry.ofTexts)⟩ := by
  rw [Draft.addAll_eq] at fits ⊢
  exact read_bytes major minor fits

def mixedPairs : List (String × String) :=
  [("a", "x"), ("", "A: 1"), ("a\x00as", "y\x00z"), ("\x00", "B: 2\x00C: 3"), ("é", "")]

end Image
end MessageCatalog
