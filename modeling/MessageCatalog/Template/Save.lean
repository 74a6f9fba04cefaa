import MessageCatalog.Charset.Utf8
import MessageCatalog.Files.Tree
import MessageCatalog.Template.Store

/-! Saving a template. The path is first moved to its `.bak` path, replacing a file there. Steps
done before a failure stay done. -/
namespace MessageCatalog.Template

open Files

inductive SaveError where
  | backup (path : Path)
  | inaccessible
  deriving DecidableEq, Repr

def backupPath (p : Path) : Path := p.extended ".bak"

def setAside (tree : Tree) (p : Path) : Except SaveError Unit × Tree :=
  let backup := backupPath p
  match if tree.exists? backup then tree.remove? backup else some tree with
  | none => (.error (.backup backup), tree)
  | some cleared =>
    match cleared.move? p backup with
    | none => (.error (.backup backup), cleared)
    | some moved => (.ok (), moved)

def save (t : Template) (tree : Tree) : Except SaveError Unit × Tree :=
  match if tree.exists? t.path then setAside tree t.path else (.ok (), tree) with
  | (.error e, tree) => (.error e, tree)
  | (.ok _, tree) =>
    match tree.write? t.path (Charset.Utf8.encode t.written) with
    | none => (.error .inaccessible, tree)
    | some saved => (.ok (), saved)

end MessageCatalog.Template
