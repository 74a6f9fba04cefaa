import MessageCatalog.Files.Path

/-! A file tree as a function from places, which are lists of names from the root. Paths resolve
through directories only, and the parent of the root is the root. -/
namespace MessageCatalog.Files

abbrev Place := List String

inductive Node where
  | directory
  | file (contents : List UInt8)
  deriving DecidableEq, Repr

structure Tree where
  at? : Place → Option Node

namespace Tree

def empty : Tree := ⟨fun place => if place = [] then some .directory else none⟩

def isDirectoryAt (t : Tree) (place : Place) : Bool := t.at? place == some .directory

def set (t : Tree) (place : Place) (node : Option Node) : Tree :=
  ⟨fun other => if other = place then node else t.at? other⟩

/-- Each step is taken from a directory. -/
def walk (t : Tree) : Place → List String → Option Place
  | here, [] => some here
  | here, step :: rest =>
    if t.isDirectoryAt here then
      if staysHere step then t.walk here rest
      else if goesUp step then t.walk here.dropLast rest
      else t.walk (here ++ [step]) rest
    else none

/-- The empty path leads nowhere. -/
def node? (t : Tree) (p : Path) : Option Node :=
  if p.text.isEmpty then none else (t.walk [] p.steps).bind t.at?

def exists? (t : Tree) (p : Path) : Bool := (t.node? p).isSome

def contents? (t : Tree) (p : Path) : Option (List UInt8) :=
  match t.node? p with
  | some (.file contents) => some contents
  | _ => none

def isFile (t : Tree) (p : Path) : Bool := (t.contents? p).isSome

/-- The place that a path names, occupied or not. -/
def slot? (t : Tree) (p : Path) : Option Place :=
  match p.steps.getLast? with
  | none => none
  | some name =>
    if isName name then
      match t.walk [] p.steps.dropLast with
      | some here => if t.isDirectoryAt here then some (here ++ [name]) else none
      | none => none
    else none

def write? (t : Tree) (p : Path) (contents : List UInt8) : Option Tree :=
  match t.slot? p with
  | none => none
  | some place =>
    if t.isDirectoryAt place then none else some (t.set place (some (.file contents)))

def remove? (t : Tree) (p : Path) : Option Tree :=
  match t.slot? p with
  | none => none
  | some place =>
    match t.at? place with
    | some (.file _) => some (t.set place none)
    | _ => none

/-- Moves the subtree at `source` to `target`. -/
def transplant (t : Tree) (source target : Place) : Tree :=
  ⟨fun place =>
    if target.isPrefixOf place then t.at? (source ++ place.drop target.length)
    else if source.isPrefixOf place then none
    else t.at? place⟩

/-- The target must be free and not below the source. -/
def move? (t : Tree) (source target : Path) : Option Tree :=
  match t.slot? source, t.slot? target with
  | some a, some b =>
    if (t.at? a).isNone || (t.at? b).isSome || a.isPrefixOf b then none
    else some (t.transplant a b)
  | _, _ => none

def makeDirectories? : Tree → Place → List String → Option Tree
  | t, _, [] => some t
  | t, here, step :: rest =>
    if staysHere step then t.makeDirectories? here rest
    else if goesUp step then t.makeDirectories? here.dropLast rest
    else
      let place := here ++ [step]
      match t.at? place with
      | some (.file _) => none
      | some .directory => t.makeDirectories? place rest
      | none => (t.set place (some .directory)).makeDirectories? place rest

def addDirectory? (t : Tree) (p : Path) : Option Tree := t.makeDirectories? [] p.steps

def addFile? (t : Tree) (p : Path) (contents : List UInt8) : Option Tree :=
  match t.makeDirectories? [] p.steps.dropLast with
  | none => none
  | some t => t.write? p contents

end Tree
end MessageCatalog.Files
