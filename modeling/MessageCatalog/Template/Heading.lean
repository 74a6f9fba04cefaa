import MessageCatalog.Template.Wrapped

/-! The first entry of a template, with an empty id and one field per line of its text. Dates are
given in their displayed form. -/
namespace MessageCatalog.Template

structure Heading where
  projectIdVersion : String
  reportBugsTo : Option String
  created : String
  revised : Option String
  translator : Option String
  translatorEmail : Option String
  team : Option String
  teamEmail : Option String
  mimeVersion : String
  contentType : String
  transferEncoding : String
  pluralForms : Option String
  generator : String
  deriving DecidableEq, Repr

/-- `name <email>`, or whichever of the two is given. -/
def person (name email : Option String) : String :=
  let name := name.getD ""
  match email with
  | none => name
  | some email =>
    if email.isEmpty then name
    else if name.isEmpty then "<" ++ email ++ ">"
    else name ++ " <" ++ email ++ ">"

namespace Heading

def standard (created : String) : Heading where
  projectIdVersion := "PACKAGE VERSION"
  reportBugsTo := none
  created := created
  revised := none
  translator := none
  translatorEmail := none
  team := none
  teamEmail := none
  mimeVersion := "1.0"
  contentType := "text/plain; charset=utf-8"
  transferEncoding := "8bit"
  pluralForms := none
  generator := "gettext-template 0.2.1"

/-- Placeholder for the date of the first revision. -/
def unrevised : String := "YEAR-MO-DA HO:MI+ZONE"

def optionalField (name : String) (value : Option String) : List (String × String) :=
  value.toList.map (name, ·)

def fields (h : Heading) : List (String × String) :=
  [("Project-Id-Version", h.projectIdVersion)] ++
  optionalField "Report-Msgid-Bugs-To" h.reportBugsTo ++
  [("POT-Creation-Date", h.created),
    ("PO-Revision-Date", h.revised.getD unrevised),
    ("Last-Translator", person h.translator h.translatorEmail),
    ("Language-Team", person h.team h.teamEmail),
    ("MIME-Version", h.mimeVersion),
    ("Content-Type", h.contentType),
    ("Content-Transfer-Encoding", h.transferEncoding)] ++
  optionalField "Plural-Forms" h.pluralForms ++
  [("X-Generator", h.generator)]

/-- The line feed stands inside the quotes. -/
def fieldLine (name value : String) : List Char :=
  Text.Quoted.between ((name ++ ": ").toList ++ Text.Quoted.encode value.toList ++ ['\\', 'n'])

def lines (h : Heading) : List (List Char) :=
  ["msgid \"\"".toList, "msgstr \"\"".toList] ++
    h.fields.map fun (name, value) => fieldLine name value

def written (h : Heading) : List Char := unlines (h.lines ++ [[]])

def render (h : Heading) : String := String.ofList h.written

end Heading
end MessageCatalog.Template
