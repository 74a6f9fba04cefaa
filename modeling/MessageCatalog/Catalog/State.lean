import MessageCatalog.Image.Contents
import MessageCatalog.Text.Placeholder

/-! The result of one load, and message look-up in it. A look-up never fails and falls back on the
texts of the caller. -/
namespace MessageCatalog.Catalog

structure State where
  messages : Messages
  fields : Header.Fields
  rule : Plural.Rule
  locale : String
  warnings : List Problem
  deriving DecidableEq

namespace State

def empty (locale : String) : State := ⟨∅, Table.empty, .twoForms, locale, []⟩

def warn (s : State) (p : Problem) : State := { s with warnings := s.warnings ++ [p] }

/-- The rule of the fields, or the default with a warning. -/
def ruleOf (fields : Header.Fields) (strategy : Plural.Strategy) : Plural.Rule × List Problem :=
  match fields.value? "Plural-Forms" with
  | none => (.twoForms, [])
  | some text =>
    match Plural.Rule.ofHeader text strategy with
    | .ok rule => (rule, [])
    | .error cause => (.twoForms, [.invalidRule cause])

/-- A nonempty `Language` field takes precedence over the requested locale. -/
def localeOf (fields : Header.Fields) (asked : String) : String :=
  match fields.value? "Language" with
  | some language => if language.isEmpty then asked else language
  | none => asked

def ofContents {E : Type} (c : Image.Contents E) (locale : String) (strategy : Plural.Strategy) :
    State :=
  let (rule, warnings) := ruleOf c.fields strategy
  { messages := c.messages
    fields := c.fields
    rule := rule
    locale := localeOf c.fields locale
    warnings := c.warnings ++ warnings }

/-- An empty form counts as missing. -/
def form? (forms : List String) (index : Nat) : Option String :=
  (forms[index]?).filter (· != "")

def singular (s : State) (context : Option String) (id : String) : String :=
  match s.messages.find? (messageKey context id) with
  | none => id
  | some forms => (form? forms 0).getD id

/-- Defined only for an index that the rule counts. -/
def chosen? (s : State) (forms : List String) (n : Int64) : Option String :=
  match s.rule.index n with
  | .error _ => none
  | .ok index =>
    if 0 ≤ index.toInt ∧ index.toInt.toNat < s.rule.forms.toNat then
      form? forms index.toInt.toNat
    else none

def plural (s : State) (context : Option String) (id pluralId : String) (n : Int64) : String :=
  let own := if n = 1 then id else pluralId
  match s.messages.find? (messageKey context id) with
  | none => own
  | some forms => (s.chosen? forms n).getD own

end State

/-- A plural id selects by count, and arguments fill placeholders. -/
structure Query where
  context : Option String
  id : String
  pluralId : Option String
  count : Int64
  arguments : Option (List String)
  deriving DecidableEq, Repr

def State.answer (s : State) (q : Query) : String :=
  let text := match q.pluralId with
    | some pluralId => s.plural q.context q.id pluralId q.count
    | none => s.singular q.context q.id
  match q.arguments with
  | some arguments => Text.filled text arguments
  | none => text

end MessageCatalog.Catalog
