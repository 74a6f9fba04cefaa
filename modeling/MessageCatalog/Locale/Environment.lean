import MessageCatalog.Files.Path

/-! Locale and search directories from environment variables. An empty variable counts as unset. -/
namespace MessageCatalog.Locale

structure Environment where
  value? : String → Option String

namespace Environment

def nonempty? (e : Environment) (name : String) : Option String :=
  (e.value? name).filter (· != "")

def locale (e : Environment) : String :=
  (["LC_ALL", "LC_MESSAGES", "LANG"].findSome? e.nonempty?).getD "C"

def standardDirs : List String :=
  ["/usr/share/locale", "/usr/local/share/locale", "/usr/lib/locale"]

def searchDirs (e : Environment) : List Files.Path :=
  ((e.nonempty? "TEXTDOMAINDIR").toList ++ standardDirs).map Files.Path.mk

end Environment
end MessageCatalog.Locale
