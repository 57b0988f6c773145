import Reflection.Artifact.Format

namespace Reflection

namespace RecordedHash

-- A comment at the start of the text that records a digest.
def inComment (text : List Char) : Option (List Char) :=
  (((Text.lines text).takeWhile ['/', '/'].isPrefixOf).findSome?
    (Text.after? hashMarker.toList)).map Text.trim

-- Of fields with the same name the last one counts.
def ofFields (fields : List (Json.Name × Json)) : Option (List Char) :=
  match fields.reverse.find? fun field => field.1.text.toOption = some "source_hash" with
  | some (_, .string body) => Json.textOf? body
  | _ => none

def ofJson : Json → Option (List Char)
  | .object fields => ofFields fields
  | _ => none

-- All of the text has to be readable.
def inJson (text : List Char) : Option (List Char) :=
  match Json.read (fun json => do json.readable Json.maxDepth; return ofJson json) text with
  | .error _ => none
  | .ok hash => hash

end RecordedHash

def recordedHash (text : List Char) : Option (List Char) :=
  match RecordedHash.inComment text with
  | some hash => some hash
  | none => RecordedHash.inJson text

end Reflection
