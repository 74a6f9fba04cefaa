import Mathlib.Logic.Function.Basic
import MessageCatalog.Proofs.Template.Notes
import MessageCatalog.Proofs.Text.Trimming
import MessageCatalog.Template.Store

/-! Runs of additions and edits. Entries correspond to the added keys in order of first addition,
hold what was recorded since, and are indexed exactly. -/
namespace MessageCatalog.Template

inductive Call where
  | add (context : Option String) (id reference : String)
  | addPlural (context : Option String) (id pluralId reference : String)
  | edit (context : Option String) (id : String) (change : Edit)
  deriving DecidableEq, Repr

namespace Call

/-- The context is trimmed. -/
def key : Call → Key
  | add context id _ | addPlural context id _ _ | edit context id _ =>
    ⟨context.map Text.trimmed, id⟩

def adds? : Call → Option Key
  | add context id _ | addPlural context id _ _ =>
    if id.isEmpty then none else some ⟨context.map Text.trimmed, id⟩
  | edit .. => none

def edits : Call → List Edit
  | add _ id reference => if id.isEmpty then [] else [.reference reference]
  | addPlural _ id pluralId reference =>
    if id.isEmpty then [] else [.plural pluralId, .reference reference]
  | edit _ _ change => [change]

end Call

def perform (t : Template) : Call → Template
  | .add context id reference => t.add context id reference
  | .addPlural context id pluralId reference => t.addPlural context id pluralId reference
  | .edit context id change => t.edit context id change

def run (t : Template) (calls : List Call) : Template := calls.foldl perform t

/-- In the order of first addition. -/
def added (calls : List Call) : List Key := (calls.filterMap Call.adds?).eraseDups

/-- Edits before the first addition find no entry. -/
def recorded (key : Key) (calls : List Call) : List Edit :=
  (calls.dropWhile (·.adds? != some key)).flatMap fun call =>
    if call.key = key then call.edits else []

def entryOf (calls : List Call) (key : Key) : Entry :=
  (Entry.new key.context key.id).applyAll (recorded key calls)

section Store

/-- One entry for each key, in order, at the slot of the index. -/
structure Keeps (t : Template) (keys : List Key) (entry : Key → Entry) : Prop where
  entries : t.entries = keys.map entry
  slots : ∀ key i, t.slot? key = some i ↔ keys[i]? = some key

variable {t : Template} {keys : List Key} {key : Key} {entry other : Key → Entry} {i j : Nat}
  {change : Entry → Entry}

theorem keeps_new (path : Files.Path) (heading : Heading) (entry : Key → Entry) :
    Keeps (new path heading) [] entry where
  entries := rfl
  slots := by simp [new, slot?]

theorem Keeps.congr (h : Keeps t keys entry) (same : ∀ key ∈ keys, entry key = other key) :
    Keeps t keys other where
  entries := h.entries.trans (List.map_congr_left same)
  slots := h.slots

theorem Keeps.slot_unique (h : Keeps t keys entry) (first : keys[i]? = some key)
    (second : keys[j]? = some key) : i = j := by
  have slot := (h.slots key i).2 first
  rw [(h.slots key j).2 second] at slot
  exact (Option.some.inj slot).symm

theorem Keeps.slot?_eq_none (h : Keeps t keys entry) (absent : key ∉ keys) :
    t.slot? key = none := by
  refine Option.eq_none_iff_forall_ne_some.2 fun i found => ?_
  exact absent (List.mem_of_getElem? ((h.slots key i).1 found))

/-- A change at the slot of a key affects the entry of that key only. -/
theorem Keeps.changeAt (h : Keeps t keys entry) (found : keys[i]? = some key) :
    Keeps (t.changeAt i change) keys (Function.update entry key (change (entry key))) where
  entries := by
    rw [Template.changeAt, h.entries]
    refine List.ext_getElem? fun j => ?_
    rw [List.getElem?_modify, List.getElem?_map, List.getElem?_map]
    cases here : keys[j]? with
    | none => rfl
    | some k =>
      by_cases same : k = key
      · subst same
        simp [h.slot_unique found here]
      · have apart : i ≠ j := by
          rintro rfl
          exact same (Option.some.inj (here.symm.trans found))
        simp [same, apart]
  slots := h.slots

theorem getElem?_concat_eq_some_iff {α : Type} {xs : List α} {x y : α} :
    (xs ++ [x])[i]? = some y ↔ xs[i]? = some y ∨ i = xs.length ∧ y = x := by
  rw [List.getElem?_append]
  split
  · next inside => simp [Nat.ne_of_lt inside]
  · next outside =>
    have nothing : xs[i]? = none := List.getElem?_eq_none (Nat.le_of_not_lt outside)
    have last : i - xs.length = 0 ↔ i = xs.length := by omega
    simp [nothing, List.getElem?_singleton, last, eq_comm]

theorem Keeps.push (h : Keeps t keys entry) (absent : key ∉ keys) :
    Keeps (t.push key) (keys ++ [key])
      (Function.update entry key (.new key.context key.id)) where
  entries := by
    have others : keys.map (Function.update entry key (.new key.context key.id)) =
        keys.map entry := by
      refine List.map_congr_left fun k member => Function.update_of_ne ?_ _ _
      rintro rfl
      exact absent member
    rw [List.map_append, others, Template.push, h.entries]
    simp
  slots := by
    intro k i
    have count : t.entries.length = keys.length := by rw [h.entries, List.length_map]
    rw [getElem?_concat_eq_some_iff, ← h.slots, slot?, slot?, Template.push, List.lookup_cons, count]
    by_cases same : k = key
    · subst same
      have unused : t.index.lookup k = none := h.slot?_eq_none absent
      simp [unused, eq_comm]
    · have other : (k == key) = false := beq_false_of_ne same
      simp [same, other]

/-- Updates affect the entry of the key, if any. -/
theorem Keeps.update (h : Keeps t keys entry) :
    Keeps (t.update key change) keys (Function.update entry key (change (entry key))) := by
  rw [Template.update]
  cases found : t.slot? key with
  | some i => exact h.changeAt ((h.slots key i).1 found)
  | none =>
    refine h.congr fun k member => ?_
    rw [Function.update_of_ne]
    rintro rfl
    obtain ⟨i, slot⟩ := List.mem_iff_getElem?.1 member
    rw [(h.slots k i).2 slot] at found
    cases found

theorem Keeps.updateOrAdd_of_mem (h : Keeps t keys entry) (member : key ∈ keys) :
    Keeps (t.updateOrAdd key change) keys (Function.update entry key (change (entry key))) := by
  obtain ⟨i, slot⟩ := List.mem_iff_getElem?.1 member
  rw [Template.updateOrAdd, (h.slots key i).2 slot]
  exact h.changeAt slot

theorem Keeps.updateOrAdd_of_notMem (h : Keeps t keys entry) (absent : key ∉ keys) :
    Keeps (t.updateOrAdd key change) (keys ++ [key])
      (Function.update entry key (change (.new key.context key.id))) := by
  have last : (keys ++ [key])[t.entries.length]? = some key := by
    rw [h.entries, List.length_map]
    exact List.getElem?_concat_length
  have changed : Keeps ((t.push key).changeAt t.entries.length change) _ _ :=
    (h.push absent).changeAt last
  rw [Function.update_self, Function.update_idem] at changed
  rw [Template.updateOrAdd, h.slot?_eq_none absent]
  exact changed

theorem Keeps.find?_eq_some_iff (h : Keeps t keys entry)
    (named : ∀ key ∈ keys, (entry key).key = key) {e : Entry} :
    t.find? key = some e ↔ e ∈ t.entries ∧ e.key = key := by
  rw [find?, Option.bind_eq_some_iff, h.entries]
  simp only [h.slots, List.getElem?_map, List.mem_map]
  constructor
  · rintro ⟨i, found, here⟩
    have member := List.mem_of_getElem? found
    rw [found] at here
    cases here
    exact ⟨⟨key, member, rfl⟩, named key member⟩
  · rintro ⟨⟨k, member, rfl⟩, same⟩
    obtain ⟨i, found⟩ := List.mem_iff_getElem?.1 member
    have under : k = key := (named k member).symm.trans same
    subst under
    exact ⟨i, found, by rw [found]; rfl⟩

theorem Keeps.entries_update (h : Keeps t keys entry)
    (named : ∀ key ∈ keys, (entry key).key = key) :
    (t.update key change).entries =
      t.entries.map fun e => if e.key = key then change e else e := by
  rw [h.update.entries, h.entries, List.map_map]
  refine List.map_congr_left fun k member => ?_
  rw [Function.comp_apply, named k member]
  by_cases same : k = key
  · rw [same, Function.update_self, if_pos rfl]
  · rw [Function.update_of_ne same, if_neg same]

end Store

section History

variable {calls : List Call} {call : Call} {key : Key} {t : Template}

theorem mem_added : key ∈ added calls ↔ ∃ call ∈ calls, call.adds? = some key := by
  rw [added, List.mem_eraseDups, List.mem_filterMap]

theorem key_of_adds (h : call.adds? = some key) : call.key = key := by
  cases call with
  | edit => cases h
  | _ =>
    rw [Call.adds?] at h
    split at h
    · cases h
    · exact Option.some.inj h

theorem added_concat_of_none (h : call.adds? = none) : added (calls ++ [call]) = added calls := by
  simp [added, h]

theorem added_concat_of_some (h : call.adds? = some key) :
    added (calls ++ [call]) =
      if key ∈ added calls then added calls else added calls ++ [key] := by
  rw [added, List.filterMap_append, List.filterMap_cons, h, List.filterMap_nil, eraseDups_concat]
  simp [added]

/-- A call after the first addition is recorded. -/
theorem recorded_concat_of_mem (h : key ∈ added calls) :
    recorded key (calls ++ [call]) =
      recorded key calls ++ if call.key = key then call.edits else [] := by
  obtain ⟨first, member, adds⟩ := mem_added.1 h
  have started : (calls.dropWhile (·.adds? != some key)).isEmpty = false := by
    refine Bool.eq_false_iff.2 fun empty => ?_
    have skipped := List.dropWhile_eq_nil_iff.1 (List.isEmpty_iff.1 empty) first member
    simp [adds] at skipped
  rw [recorded, List.dropWhile_append, started]
  simp [recorded, List.flatMap_append]

/-- The first addition is recorded. -/
theorem recorded_concat_of_notMem (absent : key ∉ added calls) (adds : call.adds? = some key) :
    recorded key (calls ++ [call]) = call.edits := by
  have skipped : (calls.dropWhile (·.adds? != some key)) = [] := by
    refine List.dropWhile_eq_nil_iff.2 fun other member => ?_
    exact bne_iff_ne.2 fun added => absent (mem_added.2 ⟨other, member, added⟩)
  rw [recorded, List.dropWhile_append, skipped]
  simp [adds, key_of_adds adds]

theorem entryOf_concat_of_mem (h : key ∈ added calls) :
    entryOf (calls ++ [call]) key =
      (entryOf calls key).applyAll (if call.key = key then call.edits else []) := by
  rw [entryOf, recorded_concat_of_mem h, Entry.applyAll_append, entryOf]

theorem entryOf_concat_of_notMem (absent : key ∉ added calls) (adds : call.adds? = some key) :
    entryOf (calls ++ [call]) key = (Entry.new key.context key.id).applyAll call.edits := by
  rw [entryOf, recorded_concat_of_notMem absent adds]

/-- A call changes one entry, adding it if needed, or nothing. -/
inductive Performed (t : Template) (call : Call) : Template → Prop
  | added (adds : call.adds? = some call.key) :
      Performed t call (t.updateOrAdd call.key (·.applyAll call.edits))
  | edited (adds : call.adds? = none) :
      Performed t call (t.update call.key (·.applyAll call.edits))
  | ignored (adds : call.adds? = none) (edits : call.edits = []) : Performed t call t

theorem performed_of_adds {empty : Prop} [Decidable empty] {edits : List Edit}
    (adds : call.adds? = if empty then none else some call.key)
    (records : call.edits = if empty then [] else edits)
    (does : t.perform call = if empty then t else t.updateOrAdd call.key (·.applyAll edits)) :
    Performed t call (t.perform call) := by
  by_cases h : empty
  · rw [if_pos h] at adds records does
    rw [does]
    exact .ignored adds records
  · rw [if_neg h] at adds records does
    rw [does, ← records]
    exact .added adds

theorem performed (t : Template) (call : Call) : Performed t call (t.perform call) := by
  cases call with
  | edit context id change => exact .edited rfl
  | add context id reference => exact performed_of_adds rfl rfl rfl
  | addPlural context id pluralId reference => exact performed_of_adds rfl rfl rfl

/-- One more call on a known key. -/
theorem Keeps.of_updated (h : Keeps t (added calls)
      (Function.update (entryOf calls) call.key ((entryOf calls call.key).applyAll call.edits))) :
    Keeps t (added calls) (entryOf (calls ++ [call])) := by
  refine h.congr fun key member => ?_
  rw [entryOf_concat_of_mem member]
  by_cases same : call.key = key
  · rw [if_pos same, ← same, Function.update_self]
  · rw [if_neg same, Function.update_of_ne (Ne.symm same)]
    rfl

/-- A step of the run invariant. -/
theorem Keeps.perform (h : Keeps t (added calls) (entryOf calls)) (call : Call) :
    Keeps (t.perform call) (added (calls ++ [call])) (entryOf (calls ++ [call])) := by
  have done := performed t call
  generalize t.perform call = after at done
  cases done with
  | added adds =>
    rw [added_concat_of_some adds]
    by_cases known : call.key ∈ added calls
    · rw [if_pos known]
      exact (h.updateOrAdd_of_mem known).of_updated
    · rw [if_neg known]
      refine (h.updateOrAdd_of_notMem known).congr fun key member => ?_
      by_cases same : key = call.key
      · rw [same, Function.update_self, entryOf_concat_of_notMem known adds]
      · have before : key ∈ added calls := by simpa [same] using member
        rw [Function.update_of_ne same, entryOf_concat_of_mem before, if_neg (Ne.symm same)]
        rfl
  | edited adds =>
    rw [added_concat_of_none adds]
    exact h.update.of_updated
  | ignored adds edits =>
    rw [added_concat_of_none adds]
    refine h.congr fun key member => ?_
    rw [entryOf_concat_of_mem member, edits, ite_self]
    rfl

theorem keeps_run (path : Files.Path) (heading : Heading) (calls : List Call) :
    Keeps ((new path heading).run calls) (added calls) (entryOf calls) := by
  induction calls using List.reverseRecOn with
  | nil => exact keeps_new path heading _
  | append_singleton calls call ih =>
    rw [run, List.foldl_append]
    exact ih.perform call

theorem key_of_key (context : Option String) (id : String) :
    Key.of (Key.of context id).context (Key.of context id).id = Key.of context id := by
  cases context with
  | none => rfl
  | some context => simp [Key.of, Text.trimmed_trimmed]

theorem exists_of_mem_added (h : key ∈ added calls) :
    ∃ context id, id ≠ "" ∧ key = Key.of context id := by
  obtain ⟨call, -, adds⟩ := mem_added.1 h
  cases call with
  | edit => cases adds
  | _ =>
    rw [Call.adds?] at adds
    split at adds
    · cases adds
    · next named => exact ⟨_, _, by simpa using named, (Option.some.inj adds).symm⟩

/-- Entries keep the key under which they were added, whose context is trimmed. -/
theorem key_entryOf (h : key ∈ added calls) :
    (entryOf calls key).key = key ∧
      (entryOf calls key).context = key.context ∧ (entryOf calls key).id = key.id := by
  obtain ⟨context, id, -, rfl⟩ := exists_of_mem_added h
  have frame := (Entry.new (Key.of context id).context (Key.of context id).id).applyAll_frame
    (recorded (Key.of context id) calls)
  refine ⟨?_, frame⟩
  rw [Entry.key, entryOf, frame.1, frame.2]
  exact key_of_key context id

theorem pair_entryOf (h : key ∈ added calls) :
    (⟨(entryOf calls key).context, (entryOf calls key).id⟩ : Key) = key :=
  congrArg₂ Key.mk (key_entryOf h).2.1 (key_entryOf h).2.2

theorem notes_entryOf (calls : List Call) (key : Key) :
    (entryOf calls key).references = firsts ((recorded key calls).filterMap Edit.reference?) ∧
    (entryOf calls key).flags = firsts ((recorded key calls).filterMap Edit.flag?) ∧
    (entryOf calls key).comments = firsts ((recorded key calls).filterMap Edit.comment?) ∧
    (entryOf calls key).pluralId =
      ((recorded key calls).filterMap Edit.plural?).find? (· != "") := by
  refine ⟨?_, ?_, ?_, ?_⟩
  · exact Entry.noted_applyAll (fun e edit => (e.notes_apply edit).1) rfl _
  · exact Entry.noted_applyAll (fun e edit => (e.notes_apply edit).2.1) rfl _
  · exact Entry.noted_applyAll (fun e edit => (e.notes_apply edit).2.2) rfl _
  · exact Entry.pluralId_applyAll rfl _

theorem mem_entries_run {path : Files.Path} {heading : Heading} {e : Entry} :
    e ∈ ((new path heading).run calls).entries ↔ ∃ key ∈ added calls, entryOf calls key = e := by
  rw [(keeps_run path heading calls).entries, List.mem_map]

end History

/-- After every run the entries have the contexts and ids added, in order of first addition and with
trimmed contexts. The index has exactly their slots, for reading and for editing, and each entry
holds the values recorded for its own context and id, once and in order, with the first plural
id. -/
theorem entries_of_run (path : Files.Path) (heading : Heading) (calls : List Call) :
    let t := (new path heading).run calls
    let own (e : Entry) : Key := ⟨e.context, e.id⟩
    (∀ text, Text.Trims text (Text.trimmed text)) ∧
    (t.entries.map own).Nodup ∧
    t.entries.map own = added calls ∧
    (∀ key i, t.slot? key = some i ↔ t.entries[i]?.map own = some key) ∧
    (∀ context id e, t.get? context id = some e ↔
      e ∈ t.entries ∧ own e = ⟨context.map Text.trimmed, id⟩) ∧
    (∀ context id change, (t.edit context id change).entries =
      t.entries.map fun e => if own e = ⟨context.map Text.trimmed, id⟩ then e.apply change else e) ∧
    ∀ e ∈ t.entries,
      e.key = own e ∧
      e.references = firsts ((recorded (own e) calls).filterMap Edit.reference?) ∧
      e.flags = firsts ((recorded (own e) calls).filterMap Edit.flag?) ∧
      e.comments = firsts ((recorded (own e) calls).filterMap Edit.comment?) ∧
      e.pluralId = ((recorded (own e) calls).filterMap Edit.plural?).find? (· != "") := by
  intro t own
  have keeps : Keeps t (added calls) (entryOf calls) := keeps_run path heading calls
  have named : ∀ key ∈ added calls, (entryOf calls key).key = key := fun key member =>
    (key_entryOf member).1
  have keyed : ∀ e ∈ t.entries, e.key = own e := by
    intro e member
    obtain ⟨key, inside, rfl⟩ := mem_entries_run.1 member
    exact (named key inside).trans (pair_entryOf inside).symm
  have keys : t.entries.map own = added calls := by
    rw [keeps.entries, List.map_map]
    exact (List.map_congr_left fun key => pair_entryOf).trans (List.map_id _)
  refine ⟨Text.trims_trimmed, ?_, keys, ?_, ?_, ?_, ?_⟩
  · rw [keys]
    exact nodup_eraseDups _
  · intro key i
    rw [keeps.slots, ← keys, List.getElem?_map]
  · intro context id e
    refine (keeps.find?_eq_some_iff named).trans (and_congr_right fun member => ?_)
    rw [keyed e member]
    rfl
  · intro context id change
    refine (keeps.entries_update named).trans (List.map_congr_left fun e member => ?_)
    rw [keyed e member]
    rfl
  · intro e member
    refine ⟨keyed e member, ?_⟩
    obtain ⟨key, inside, rfl⟩ := mem_entries_run.1 member
    rw [show own (entryOf calls key) = key from pair_entryOf inside]
    exact notes_entryOf calls key

theorem entries_of_run_merged :
    let calls : List Call := [.add (some " menu ") "Open" "a.c:1", .add none "" "a.c:2",
      .addPlural (some "menu") "Open" "Opens" "b.c:3", .add (some "") "Open" "c.c:4",
      .add none "Open" "d.c:5", .edit (some "menu") "Open" (.flag "c-format")]
    let t := (new ⟨"po/app.pot"⟩ (.standard "2024-01-02 03:04+0000")).run calls
    t.entries.map (fun e => (⟨e.context, e.id⟩ : Key)) =
        [⟨some "menu", "Open"⟩, ⟨some "", "Open"⟩, ⟨none, "Open"⟩] ∧
      ∀ e ∈ t.entries, (⟨e.context, e.id⟩ : Key) = ⟨some "menu", "Open"⟩ →
        e.references = ["a.c:1", "b.c:3"] ∧ e.flags = ["c-format"] ∧ e.pluralId = some "Opens" := by
  intro calls t
  obtain ⟨-, -, keys, -, -, -, records⟩ :=
    entries_of_run ⟨"po/app.pot"⟩ (.standard "2024-01-02 03:04+0000") calls
  have menu : recorded ⟨some "menu", "Open"⟩ calls =
      [.reference "a.c:1", .plural "Opens", .reference "b.c:3", .flag "c-format"] := by
    decide
  refine ⟨keys, fun e member own => ?_⟩
  have held := records e member
  simp only [own, menu] at held
  exact ⟨held.2.1, held.2.2.1, held.2.2.2.2⟩

end MessageCatalog.Template
