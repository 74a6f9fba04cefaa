import Mathlib.Data.List.Induction
import MessageCatalog.Template.Entry

/-! An entry after a list of edits: nonempty values of each kind, once and in order, and the first
plural id. -/
namespace MessageCatalog.Template

theorem eraseDups_concat {α : Type} [BEq α] [LawfulBEq α] (xs : List α) (x : α) :
    (xs ++ [x]).eraseDups = if xs.contains x then xs.eraseDups else xs.eraseDups ++ [x] := by
  rw [List.eraseDups_append, List.removeAll]
  cases known : xs.contains x with
  | true => simp_all
  | false => simp_all [List.eraseDups_cons]

theorem nodup_eraseDups {α : Type} [BEq α] [LawfulBEq α] (xs : List α) : xs.eraseDups.Nodup := by
  induction xs using List.reverseRecOn with
  | nil => exact List.nodup_nil
  | append_singleton xs x ih =>
    rw [eraseDups_concat]
    cases known : xs.contains x with
    | true => exact ih
    | false =>
      have absent : x ∉ xs.eraseDups := by simpa using known
      refine List.nodup_append.2 ⟨ih, by simp, ?_⟩
      rintro a earlier b last rfl
      exact absent (List.mem_singleton.1 last ▸ earlier)

/-- Nonempty values at their first occurrence. -/
def firsts (values : List String) : List String := (values.filter (· != "")).eraseDups

theorem firsts_concat (values : List String) (value : String) :
    firsts (values ++ [value]) = noted (firsts values) value := by
  rw [firsts, firsts, noted, List.filter_append]
  by_cases empty : value = ""
  · simp [empty]
  · simp [empty, eraseDups_concat]

def Edit.plural? : Edit → Option String
  | plural id => some id
  | reference _ | flag _ | comment _ => none

def Edit.reference? : Edit → Option String
  | reference value => some value
  | plural _ | flag _ | comment _ => none

def Edit.flag? : Edit → Option String
  | flag value => some value
  | plural _ | reference _ | comment _ => none

def Edit.comment? : Edit → Option String
  | comment value => some value
  | plural _ | reference _ | flag _ => none

namespace Entry

variable {e : Entry}

def applyAll (e : Entry) (edits : List Edit) : Entry := edits.foldl Entry.apply e

theorem applyAll_append (e : Entry) (edits more : List Edit) :
    e.applyAll (edits ++ more) = (e.applyAll edits).applyAll more :=
  List.foldl_append

theorem applyAll_concat (e : Entry) (edits : List Edit) (edit : Edit) :
    e.applyAll (edits ++ [edit]) = (e.applyAll edits).apply edit :=
  applyAll_append e edits [edit]

theorem apply_frame (e : Entry) (edit : Edit) :
    (e.apply edit).context = e.context ∧ (e.apply edit).id = e.id := by
  cases edit with
  | plural id => rw [apply]; split <;> exact ⟨rfl, rfl⟩
  | _ => exact ⟨rfl, rfl⟩

theorem applyAll_frame (e : Entry) (edits : List Edit) :
    (e.applyAll edits).context = e.context ∧ (e.applyAll edits).id = e.id := by
  induction edits generalizing e with
  | nil => exact ⟨rfl, rfl⟩
  | cons edit edits ih =>
    obtain ⟨context, id⟩ := e.apply_frame edit
    obtain ⟨lastContext, lastId⟩ := ih (e.apply edit)
    exact ⟨lastContext.trans context, lastId.trans id⟩

/-- An edit adds its value to the list of its kind only. -/
theorem notes_apply (e : Entry) (edit : Edit) :
    (e.apply edit).references = edit.reference?.elim e.references (noted e.references) ∧
    (e.apply edit).flags = edit.flag?.elim e.flags (noted e.flags) ∧
    (e.apply edit).comments = edit.comment?.elim e.comments (noted e.comments) := by
  cases edit with
  | plural id => rw [apply]; split <;> exact ⟨rfl, rfl, rfl⟩
  | _ => exact ⟨rfl, rfl, rfl⟩

/-- A list that starts empty and collects the values of one kind of edit. -/
theorem noted_applyAll {notes : Entry → List String} {value? : Edit → Option String}
    (step : ∀ e edit, notes (e.apply edit) = (value? edit).elim (notes e) (noted (notes e)))
    (start : notes e = []) (edits : List Edit) :
    notes (e.applyAll edits) = firsts (edits.filterMap value?) := by
  induction edits using List.reverseRecOn with
  | nil => exact start
  | append_singleton edits edit ih =>
    rw [applyAll_concat, step, List.filterMap_append, ih]
    cases given : value? edit with
    | none => simp [given]
    | some value => simp [given, firsts_concat]

theorem pluralId_applyAll (start : e.pluralId = none) (edits : List Edit) :
    (e.applyAll edits).pluralId = (edits.filterMap Edit.plural?).find? (· != "") := by
  induction edits using List.reverseRecOn with
  | nil => exact start
  | append_singleton edits edit ih =>
    rw [applyAll_concat, List.filterMap_append, List.find?_append, ← ih]
    cases edit with
    | plural id =>
      rw [apply, takesPlural]
      by_cases empty : id = ""
      · simp [empty, Edit.plural?]
      · cases known : (e.applyAll edits).pluralId with
        | none => simp [empty, Edit.plural?]
        | some first => simp [known, Edit.plural?]
    | _ => simp [apply, Edit.plural?]

end Entry
end MessageCatalog.Template
