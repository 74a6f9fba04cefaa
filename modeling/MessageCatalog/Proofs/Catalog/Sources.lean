import MessageCatalog.Catalog.Load
import MessageCatalog.Catalog.Shelf
import MessageCatalog.Proofs.Image.Continuation

/-! Sources of states and repeated reloads. A failed load keeps the state, so invariants of loaded
states extend to all states that reloads reach. -/
namespace MessageCatalog

open Charset Files

variable {E : Type} [Encodings E]

inductive Catalog.Source (E : Type) where
  | nothing (locale : String)
  | image (options : LoadOptions E) (locale : String) (data : List UInt8)
  | file (options : LoadOptions E) (locale : String) (tree : Tree) (path : Path)
  | search (options : LoadOptions E) (locale : String) (tree : Tree) (dirs : List Path)
    (domain : String)

namespace Catalog

def Source.load : Source E → Except Problem State
  | nothing locale => .ok (.empty locale)
  | image options locale data => State.ofImage options locale data
  | file options locale tree path => State.ofFile options locale tree path
  | search options locale tree dirs domain => State.load options tree dirs domain locale

def reloads (c : Catalog) (sources : List (Source E)) : Catalog :=
  sources.foldl (fun c source => (c.reload source.load).2) c

section Invariants

variable {P : State → Prop}

theorem state_reload {c : Catalog} {loaded : Except Problem State} (current : P c.state)
    (next : ∀ s, loaded = .ok s → P s) : P (c.reload loaded).2.state := by
  cases loaded with
  | ok s => exact next s rfl
  | error problem => exact current

theorem state_reloads {c : Catalog} (loads : ∀ (source : Source E) s, source.load = .ok s → P s)
    (current : P c.state) (sources : List (Source E)) : P (c.reloads sources).state := by
  induction sources generalizing c with
  | nil => exact current
  | cons source sources ih => exact ih (state_reload current (loads source))

/-- What holds of an empty state and of every state of an image, whatever the warnings, holds of
every loaded state. -/
theorem of_load (empty : ∀ locale warnings, P { State.empty locale with warnings := warnings })
    (image : ∀ (options : LoadOptions E) locale data s,
      State.ofImage options locale data = .ok s → P s)
    {source : Source E} {s : State} (loaded : source.load = .ok s) : P s := by
  have file {options : LoadOptions E} {locale tree path}
      (loaded : State.ofFile options locale tree path = .ok s) : P s := by
    rw [State.ofFile] at loaded
    split at loaded
    · exact image _ _ _ s loaded
    · cases loaded
  cases source with
  | nothing locale =>
    cases loaded
    exact empty locale []
  | image options locale data => exact image _ _ _ s loaded
  | file options locale tree path => exact file loaded
  | search options locale tree dirs domain =>
    rw [Source.load, State.load] at loaded
    split at loaded
    · exact file loaded
    · cases loaded
      exact empty locale _

end Invariants

theorem find?_empty_of_load {source : Source E} {s : State} (loaded : source.load = .ok s) :
    s.messages.find? "" = none := by
  refine of_load (P := fun s => s.messages.find? "" = none) (fun _ _ => Table.find?_empty "")
    (fun options locale data s loaded => ?_) loaded
  obtain ⟨image, read, made⟩ := bind_ok loaded
  obtain ⟨frame, -, contents⟩ := bind_ok read
  cases made
  cases contents
  exact Image.Contents.find?_empty_ofEntries options frame.entries

end Catalog
end MessageCatalog
