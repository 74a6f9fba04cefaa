import MessageCatalog.Files.Tree
import MessageCatalog.Locale.Ladder
import MessageCatalog.Problem

/-! Candidate paths of a catalog: per directory and locale name, the messages directory before the
directory itself. The first file wins. -/
namespace MessageCatalog.Locale

open Files

def placesUnder (dir : Path) (domain name : String) : List Path :=
  let file := domain ++ ".mo"
  [((dir.join name).join "LC_MESSAGES").join file, (dir.join name).join file]

def places (dirs : List Path) (domain locale : String) : List Path :=
  dirs.flatMap fun dir => (candidates locale).flatMap (placesUnder dir domain)

def find (tree : Tree) (dirs : List Path) (domain locale : String) : Except Problem Path :=
  match (places dirs domain locale).find? tree.isFile with
  | some path => .ok path
  | none => .error (.missingFile domain locale)

end MessageCatalog.Locale
