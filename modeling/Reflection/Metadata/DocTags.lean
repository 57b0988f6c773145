import Reflection.Metadata.Piece

namespace Reflection.Metadata

-- The key runs to the first blank; the rest of the line, trimmed, is the value.
def pieceOfTag (tag : List Char) : Option Piece :=
  let key := tag.takeWhile fun c => !Text.isBlank c
  let value := Text.trim (tag.drop (key.length + 1))
  if key.isEmpty then none
  else if value.isEmpty then some (Piece.marker (String.ofList key))
  else some ⟨String.ofList key, String.ofList value⟩

-- A line of the form `@key rest` gives a piece. All other lines are prose.
def pieceOfLine (line : List Char) : Option Piece :=
  match Text.trim line with
  | '@' :: tag => pieceOfTag tag
  | _ => none

def ofDocText (text : List Char) : List Piece := (Text.lines text).filterMap pieceOfLine

-- A line is tagged if its first character that is not blank is the tag sign.
def isTagged (line : List Char) : Bool := (Text.trimStart line).head? = some '@'

end Reflection.Metadata
