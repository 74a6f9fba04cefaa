import MessageCatalog.Text.Cut

/-! Candidate names for a locale `language[_territory][.codeset][@modifier]`, most specific first,
without duplicates or empty names. -/
namespace MessageCatalog.Locale

def parted (mark : Char) (text : List Char) : List Char × Option (List Char) :=
  match Text.cut mark text with
  | some (before, after) => (before, some after)
  | none => (text, none)

/-- `base` is the language with its territory. -/
structure Name where
  base : List Char
  language : List Char
  territory : Option (List Char)
  codeset : Option (List Char)
  modifier : Option (List Char)
  deriving DecidableEq, Repr

def Name.ofText (text : List Char) : Name :=
  let (plain, modifier) := parted '@' text
  let (base, codeset) := parted '.' plain
  let (language, territory) := parted '_' base
  ⟨base, language, territory, codeset, modifier⟩

def Name.territorial (n : Name) : List (List Char) :=
  match n.codeset, n.modifier with
  | some codeset, some modifier => [n.base ++ '@' :: modifier, n.base ++ '.' :: codeset, n.base]
  | none, none => []
  | _, _ => [n.base]

def Name.general (n : Name) : List (List Char) :=
  match n.territory, n.modifier with
  | none, _ => []
  | some _, some modifier => [n.language ++ '@' :: modifier, n.language]
  | some _, none => [n.language]

/-- First occurrences, without empty names. -/
def distinctNames : List (List Char) → List (List Char)
  | [] => []
  | name :: rest =>
    if name.isEmpty then distinctNames rest
    else name :: (distinctNames rest).filter (· != name)

def ladder (text : List Char) : List (List Char) :=
  let name := Name.ofText text
  distinctNames (text :: (name.territorial ++ name.general))

def withUnderscores (text : List Char) : List Char :=
  text.map fun c => if c = '-' then '_' else c

/-- The name as given, then its ladder with hyphens replaced. -/
def steps (text : List Char) : List (List Char) :=
  distinctNames (text :: ladder (withUnderscores text))

def variants (locale : String) : List String := (ladder locale.toList).map String.ofList

def candidates (locale : String) : List String := (steps locale.toList).map String.ofList

end MessageCatalog.Locale
