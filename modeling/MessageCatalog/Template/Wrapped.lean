import MessageCatalog.Text.Quoted

/-! Writing a keyword with a quoted text. A short one-line text follows its keyword; any other
follows on lines that end after a space, a tab or a line feed. -/
namespace MessageCatalog.Template

/-- Quoted width at which a line is closed. -/
def wrapColumn : Nat := 77

/-- Splits after line feeds and, at the wrap column, after spaces and tabs. -/
def pieces : (closed opened : List Char) → List Char → List (List Char)
  | closed, opened, [] => if (closed ++ opened).isEmpty then [] else [closed ++ opened]
  | closed, opened, c :: rest =>
    let written := Text.Quoted.encodeChar c
    if c = '\n' then (closed ++ opened ++ written) :: pieces [] [] rest
    else
      let breaks := c == ' ' || c == '\t'
      let closed := if breaks then closed ++ opened ++ written else closed
      let opened := if breaks then [] else opened ++ written
      if !closed.isEmpty && wrapColumn ≤ closed.length + opened.length then
        closed :: pieces [] opened rest
      else pieces closed opened rest

def fitsOneLine (keyword text : List Char) : Bool :=
  keyword.length + (Text.Quoted.encode text).length < wrapColumn && !text.contains '\n'

def keywordLines (keyword text : List Char) : List (List Char) :=
  if fitsOneLine keyword text then
    [keyword ++ ' ' :: Text.Quoted.between (Text.Quoted.encode text)]
  else
    (keyword ++ ' ' :: Text.Quoted.between []) :: (pieces [] [] text).map Text.Quoted.between

def unlines (lines : List (List Char)) : List Char := lines.flatMap (· ++ ['\n'])

def writeKeyword (keyword text : String) : String :=
  String.ofList (unlines (keywordLines keyword.toList text.toList))

end MessageCatalog.Template
