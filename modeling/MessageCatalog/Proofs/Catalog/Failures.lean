import MessageCatalog.Proofs.Catalog.Sources
import MessageCatalog.Proofs.Image.Shape

/-! Problems that end a load and problems that become warnings. Only unreadable bytes and
inaccessible files end a load, and they are never recoverable; an unreadable rule costs one
warning. -/
namespace MessageCatalog

open Charset Files

variable {E : Type} [Encodings E]

theorem Image.not_isRecoverable_of_read {options : LoadOptions E} {data : List UInt8}
    {problem : Problem} (failed : read options data = .error problem) :
    problem.isRecoverable = false := by
  have ends := ends_read options data
  rw [failed] at ends
  cases ends <;> rfl

theorem Locale.contents_of_find {tree : Tree} {dirs : List Path} {domain locale : String}
    {path : Path} (found : find tree dirs domain locale = .ok path) :
    ∃ data, tree.contents? path = some data := by
  unfold find at found
  split at found
  · next place first =>
    cases found
    have isFile : tree.isFile path = true := List.find?_some first
    exact Option.isSome_iff_exists.1 isFile
  · cases found

theorem Locale.error_of_find {tree : Tree} {dirs : List Path} {domain locale : String}
    {problem : Problem} (failed : find tree dirs domain locale = .error problem) :
    problem = .missingFile domain locale := by
  unfold find at failed
  split at failed
  · cases failed
  · exact (Except.error.inj failed).symm

namespace Catalog

/-- The ways in which a source fails to load. -/
inductive Source.Fails : Source E → Problem → Prop
  | image {options locale data problem} (unread : Image.read options data = .error problem) :
      Fails (.image options locale data) problem
  | closed {options locale tree path} (absent : tree.contents? path = none) :
      Fails (.file options locale tree path) .inaccessible
  | file {options locale tree path data problem} (opened : tree.contents? path = some data)
      (unread : Image.read options data = .error problem) :
      Fails (.file options locale tree path) problem
  | search {options locale tree dirs domain path data problem}
      (found : Locale.find tree dirs domain locale = .ok path)
      (opened : tree.contents? path = some data)
      (unread : Image.read options data = .error problem) :
      Fails (.search options locale tree dirs domain) problem

inductive Ruled (fields : Header.Fields) (strategy : Plural.Strategy) :
    Plural.Rule → List Problem → Prop
  | absent (silent : fields.value? "Plural-Forms" = none) : Ruled fields strategy .twoForms []
  | accepted {text rule} (told : fields.value? "Plural-Forms" = some text)
      (read : Plural.Rule.ofHeader text strategy = .ok rule) : Ruled fields strategy rule []
  | rejected {text cause} (told : fields.value? "Plural-Forms" = some text)
      (unread : Plural.Rule.ofHeader text strategy = .error cause) :
      Ruled fields strategy .twoForms [.invalidRule cause]

theorem Ruled.isRecoverable {fields : Header.Fields} {strategy : Plural.Strategy}
    {rule : Plural.Rule} {noted : List Problem} (ruled : Ruled fields strategy rule noted) :
    ∀ problem ∈ noted, problem.isRecoverable = true := by
  cases ruled with
  | absent silent => nofun
  | accepted told read => nofun
  | rejected told unread => simp [Problem.isRecoverable]

namespace State

/-- Warnings are recoverable. -/
def NotesRecoverable (s : State) : Prop := ∀ problem ∈ s.warnings, problem.isRecoverable = true

section Images

variable {options : LoadOptions E} {locale : String} {data : List UInt8}

theorem ofImage_of_read {image : Image.Reading E} (read : Image.read options data = .ok image) :
    ofImage options locale data = .ok (ofContents image.contents locale options.strategy) :=
  bind_of_ok read

theorem ofImage_eq_error_iff {problem : Problem} :
    ofImage options locale data = .error problem ↔ Image.read options data = .error problem := by
  cases read : Image.read options data with
  | ok image => simp [ofImage_of_read read]
  | error cause =>
    have failed : ofImage options locale data = .error cause := bind_of_error read
    simp [failed]

theorem ruled_ruleOf (fields : Header.Fields) (strategy : Plural.Strategy) :
    Ruled fields strategy (ruleOf fields strategy).1 (ruleOf fields strategy).2 := by
  unfold ruleOf
  split
  · next silent => exact .absent silent
  · next text told =>
    split
    · next rule read => exact .accepted told read
    · next cause unread => exact .rejected told unread

theorem notesRecoverable_ofContents {E : Type} {c : Image.Contents E} (notes : c.NotesCharsets)
    (locale : String) (strategy : Plural.Strategy) :
    (ofContents c locale strategy).NotesRecoverable := by
  intro problem noted
  have parts : (ofContents c locale strategy).warnings =
      c.warnings ++ (ruleOf c.fields strategy).2 := rfl
  rw [parts, List.mem_append] at noted
  rcases noted with charset | rule
  · obtain ⟨label, rfl⟩ := notes problem charset
    rfl
  · exact (ruled_ruleOf c.fields strategy).isRecoverable problem rule

theorem notesRecoverable_ofImage {s : State} (loaded : ofImage options locale data = .ok s) :
    s.NotesRecoverable := by
  obtain ⟨image, read, made⟩ := bind_ok loaded
  cases made
  have notes := Image.Contents.notesCharsets_ofEntries options
    (Image.entriesIn image.order data)
  rw [← Image.contents_of_read read] at notes
  exact notesRecoverable_ofContents notes locale options.strategy

end Images

theorem ofFile_eq_error_iff {options : LoadOptions E} {locale : String} {tree : Tree} {path : Path}
    {problem : Problem} : ofFile options locale tree path = .error problem ↔
      tree.contents? path = none ∧ problem = .inaccessible ∨
        ∃ data, tree.contents? path = some data ∧ Image.read options data = .error problem := by
  unfold ofFile
  cases tree.contents? path with
  | none => simp [eq_comm]
  | some data => simp [ofImage_eq_error_iff]

/-- A search fails a load only through a file it found. -/
theorem load_eq_error_iff {options : LoadOptions E} {tree : Tree} {dirs : List Path}
    {domain locale : String} {problem : Problem} :
    load options tree dirs domain locale = .error problem ↔
      ∃ path data, Locale.find tree dirs domain locale = .ok path ∧
        tree.contents? path = some data ∧ Image.read options data = .error problem := by
  unfold load
  cases found : Locale.find tree dirs domain locale with
  | error cause => simp
  | ok path =>
    obtain ⟨data, opened⟩ := Locale.contents_of_find found
    simp [ofFile_eq_error_iff, opened]

theorem notesRecoverable_ofFile {options : LoadOptions E} {locale : String} {tree : Tree}
    {path : Path} {s : State} (loaded : ofFile options locale tree path = .ok s) :
    s.NotesRecoverable := by
  unfold ofFile at loaded
  split at loaded
  · exact notesRecoverable_ofImage loaded
  · cases loaded

theorem notesRecoverable_load {options : LoadOptions E} {tree : Tree} {dirs : List Path}
    {domain locale : String} {s : State}
    (loaded : load options tree dirs domain locale = .ok s) : s.NotesRecoverable := by
  unfold load at loaded
  split at loaded
  · exact notesRecoverable_ofFile loaded
  · next problem missing =>
    cases loaded
    cases Locale.error_of_find missing
    simp [NotesRecoverable, warn, empty, Problem.isRecoverable]

end State

namespace Source

variable {source : Source E} {problem : Problem}

theorem load_eq_error_iff_fails : source.load = .error problem ↔ source.Fails problem := by
  constructor
  · intro failed
    cases source with
    | nothing locale => cases failed
    | image options locale data => exact .image (State.ofImage_eq_error_iff.1 failed)
    | file options locale tree path =>
      rcases State.ofFile_eq_error_iff.1 failed with ⟨absent, rfl⟩ | ⟨data, opened, unread⟩
      · exact .closed absent
      · exact .file opened unread
    | search options locale tree dirs domain =>
      obtain ⟨path, data, found, opened, unread⟩ := State.load_eq_error_iff.1 failed
      exact .search found opened unread
  · intro fails
    cases fails with
    | image unread => exact State.ofImage_eq_error_iff.2 unread
    | closed absent => exact State.ofFile_eq_error_iff.2 (.inl ⟨absent, rfl⟩)
    | file opened unread => exact State.ofFile_eq_error_iff.2 (.inr ⟨_, opened, unread⟩)
    | search found opened unread =>
      exact State.load_eq_error_iff.2 ⟨_, _, found, opened, unread⟩

theorem Fails.not_isRecoverable (fails : source.Fails problem) :
    problem.isRecoverable = false := by
  cases fails with
  | image unread => exact Image.not_isRecoverable_of_read unread
  | closed absent => rfl
  | file opened unread => exact Image.not_isRecoverable_of_read unread
  | search found opened unread => exact Image.not_isRecoverable_of_read unread

theorem notesRecoverable_of_load {s : State} (loaded : source.load = .ok s) :
    s.NotesRecoverable := by
  cases source with
  | nothing locale =>
    cases loaded
    nofun
  | image options locale data => exact State.notesRecoverable_ofImage loaded
  | file options locale tree path => exact State.notesRecoverable_ofFile loaded
  | search options locale tree dirs domain => exact State.notesRecoverable_load loaded

end Source

/-- For every source and every catalog opened or reloaded from one, at any time. -/
theorem loads_fail_only_fatally {E : Type} [Encodings E] :
    (∀ (source : Source E) problem, (source.load = .error problem ↔ source.Fails problem) ∧
      (source.load = .error problem → problem.isRecoverable = false)) ∧
    (∀ (source : Source E) s, source.load = .ok s → s.NotesRecoverable) ∧
    (∀ (c : Catalog) (source : Source E),
      (∀ problem, (c.reload source.load).1 = .error problem → problem.isRecoverable = false) ∧
      ((c.reload source.load).1 = .ok () → (c.reload source.load).2.state.NotesRecoverable)) ∧
    (∀ (opened : Source E) s (later : List (Source E)), opened.load = .ok s →
      ((ofState s).reloads later).state.NotesRecoverable) ∧
    ∀ (options : LoadOptions E) locale data,
      (∀ problem, State.ofImage options locale data = .error problem ↔
        Image.read options data = .error problem) ∧
      ∀ image, Image.read options data = .ok image →
        ∃ s noted, State.ofImage options locale data = .ok s ∧
          Ruled image.contents.fields options.strategy s.rule noted ∧
          s.warnings = image.contents.warnings ++ noted := by
  refine ⟨?_, ?_, ?_, ?_, ?_⟩
  · intro source problem
    exact ⟨Source.load_eq_error_iff_fails, fun failed =>
      (Source.load_eq_error_iff_fails.1 failed).not_isRecoverable⟩
  · intro source s loaded
    exact Source.notesRecoverable_of_load loaded
  · intro c source
    cases loading : source.load with
    | ok s => exact ⟨nofun, fun _ => Source.notesRecoverable_of_load loading⟩
    | error cause =>
      refine ⟨fun problem failed => ?_, nofun⟩
      cases failed
      exact (Source.load_eq_error_iff_fails.1 loading).not_isRecoverable
  · intro opened s later loaded
    exact state_reloads (fun source t => Source.notesRecoverable_of_load)
      (Source.notesRecoverable_of_load loaded) later
  · intro options locale data
    refine ⟨fun problem => State.ofImage_eq_error_iff, fun image read => ?_⟩
    exact ⟨_, _, State.ofImage_of_read read, State.ruled_ruleOf _ _, rfl⟩

def doubtfulHeader : Source Cyrillic :=
  .image .standard "de" ((Image.Draft.empty.add "" ("Content-Type: text/plain; charset=CHARSET\n" ++
    "Plural-Forms: nplurals=2; plural=n =! 1")).add "a" "x").bytes

def shortFile : Source Cyrillic :=
  .search .standard "it" ((Tree.empty.addFile? ⟨"/l/it/app.mo"⟩ [0]).getD Tree.empty) [⟨"/l"⟩] "app"

theorem loads_fail_only_fatally_doubtfulHeader :
    (∃ s, doubtfulHeader.load = .ok s ∧ s.NotesRecoverable ∧ s.rule = .twoForms ∧
      s.warnings =
        [.unresolvedCharset "CHARSET", .invalidRule (.unexpectedChar '!' 3)]) ∧
      shortFile.load = .error .endOfData ∧ Problem.endOfData.isRecoverable = false ∧
      ∀ c : Catalog, (c.reload shortFile.load).1 = .error .endOfData := by
  obtain ⟨fatal, notes, -⟩ := loads_fail_only_fatally (E := Cyrillic)
  have told : doubtfulHeader.load.toOption.map (fun s => (s.rule, s.warnings)) =
      some (.twoForms, [.unresolvedCharset "CHARSET", .invalidRule (.unexpectedChar '!' 3)]) := by
    decide +kernel
  have short : shortFile.load = .error .endOfData := by decide +kernel
  refine ⟨?_, short, (fatal shortFile .endOfData).2 short, fun c => by simp [short, reload]⟩
  cases loaded : doubtfulHeader.load with
  | error problem =>
    rw [loaded] at told
    cases told
  | ok s =>
    rw [loaded] at told
    obtain ⟨rule, warnings⟩ := Prod.mk.inj (Option.some.inj told)
    exact ⟨s, rfl, notes doubtfulHeader s loaded, rule, warnings⟩

end Catalog
end MessageCatalog
