import Reflection.Notice
import Reflection.Path

namespace Reflection

-- Points in time are only ever compared.
abbrev Timestamp := Int

-- The names that lead from the top of a store to an entry.
abbrev Location := List (List Char)

inductive Entry where
  | file (bytes : ByteArray) (modified : Timestamp)
  | directory (modified : Timestamp)

def Entry.modified : Entry → Timestamp
  | file _ modified => modified
  | directory modified => modified

def Entry.touch (modified : Timestamp) : Entry → Entry
  | file bytes _ => file bytes modified
  | directory _ => directory modified

-- A tree of files, seen from a directory in it. The directories above it exist, but nothing else is
-- known about them.
structure Store where
  entry? : Location → Option Entry
  -- when the directories around the store were changed last
  founded : Timestamp
  -- later than any change so far
  now : Timestamp

-- What a path leads to, whether it exists or not.
inductive Place where
  | inside (location : Location)
  -- a directory above the store; so many others are between them
  | above (between : Nat)
  | root
  deriving Repr, DecidableEq

namespace Place

def parent : Place → Place
  | inside [] => above 0
  | inside location => inside location.dropLast
  | above between => above (between + 1)
  | root => root

-- Where a name leads; outside of the store no names are known.
def child (name : List Char) : Place → Except FileError Place
  | inside location => .ok (inside (location ++ [name]))
  | _ => .error .notFound

end Place

namespace Store

-- Nothing but the top directory.
def empty (now : Timestamp) : Store :=
  ⟨fun location => if location = [] then some (.directory now) else none, now, now + 1⟩

def set (store : Store) (location : Location) (entry : Entry) : Store :=
  { store with entry? := fun other => if other = location then some entry else store.entry? other }

-- Is there nothing to be looked up?
def isVoid (segment : List Char) : Bool := segment = [] || segment = ['.']

def isParent (segment : List Char) : Bool := segment = ['.', '.']

-- In bytes.
def maxNameLength : Nat := 255

def maxPathLength : Nat := 4095

def tooLong : FileError := .failed "file name too long"

def entryAt (store : Store) : Place → Except FileError Entry
  | .inside location =>
    match store.entry? location with
    | none => .error .notFound
    | some entry => .ok entry
  | _ => .ok (.directory store.founded)

-- A segment is looked up in a directory, even one that leads nowhere else.
def step (store : Store) (place : Place) (segment : List Char) : Except FileError Place :=
  match store.entryAt place with
  | .error error => .error error
  | .ok (.file _ _) => .error .notDirectory
  | .ok (.directory _) =>
    if isVoid segment then .ok place
    else if isParent segment then .ok place.parent
    else if maxNameLength < Text.byteLength segment then .error tooLong
    else place.child segment

def start (path : Path) : Place := if path.hasRoot then .root else .inside []

def resolve (store : Store) (path : Path) : Except FileError Place :=
  if path.text.isEmpty then .error .notFound
  else if path.text.toList.contains '\x00' then .error (.failed "invalid file name")
  else if maxPathLength < path.text.utf8ByteSize then .error tooLong
  else path.segments.foldlM store.step (start path)

def lookup (store : Store) (path : Path) : Except FileError Entry := do
  store.entryAt (← store.resolve path)

def modified (store : Store) (path : Path) : Except FileError Timestamp :=
  (store.lookup path).map Entry.modified

def read (store : Store) (path : Path) : Except FileError ByteArray := do
  match ← store.lookup path with
  | .file bytes _ => .ok bytes
  | .directory _ => .error .isDirectory

-- Do both paths lead to the same thing? There is no answer if one leads to nothing.
def sameFile (store : Store) (first second : Path) : Option Bool := do
  let _ ← (store.lookup first).toOption
  let _ ← (store.lookup second).toOption
  return (← (store.resolve first).toOption) = (← (store.resolve second).toOption)

-- Puts an entry where none is; the directory that it is put into changes with it.
def add (store : Store) (location : Location) (entry : Entry) : Store :=
  let parent := match store.entry? location.dropLast with
    | none => store
    | some directory => store.set location.dropLast (directory.touch store.now)
  parent.set location entry

def tick (store : Store) : Store := { store with now := store.now + 1 }

-- Replaces the contents of a file, or makes a new file in a directory that exists.
def write (store : Store) (path : Path) (bytes : ByteArray) : Except FileError Store := do
  match ← store.resolve path with
  | .inside location =>
    match store.entry? location with
    | some (.directory _) => .error .isDirectory
    | some (.file _ _) => .ok (store.set location (.file bytes store.now)).tick
    | none => .ok (store.add location (.file bytes store.now)).tick
  | _ => .error .isDirectory

-- Looks a segment up, and makes a directory where there is nothing.
def stepMaking (reached : Store × Place) (segment : List Char) :
    Except FileError (Store × Place) := do
  let place ← reached.1.step reached.2 segment
  match place, reached.1.entryAt place with
  | .inside location, .error .notFound =>
    .ok ((reached.1.add location (.directory reached.1.now)).tick, place)
  | _, _ => .ok (reached.1, place)

-- Makes a directory with all directories above it.
def makeDirectory (store : Store) (path : Path) : Except FileError Store := do
  return (← path.segments.foldlM stepMaking (store, start path)).1

-- The path without its last segment.
def parentPath (path : Path) : Path :=
  ⟨String.ofList (List.intercalate ['/'] path.segments.dropLast)⟩

-- Writes a file after making the directories above it.
def put (store : Store) (path : Path) (bytes : ByteArray) : Except FileError Store := do
  (← store.makeDirectory (parentPath path)).write path bytes

def touch (store : Store) (path : Path) (modified : Timestamp) : Except FileError Store := do
  match ← store.resolve path with
  | .inside location =>
    match store.entry? location with
    | none => .error .notFound
    | some entry => .ok (store.set location (entry.touch modified))
  | _ => .ok store

-- Removes an entry with all that is below it.
def remove (store : Store) (path : Path) : Except FileError Store := do
  match ← store.resolve path with
  | .inside location =>
    .ok { store with entry? := fun other =>
      if location.isPrefixOf other then none else store.entry? other }
  | _ => .ok store

end Store

end Reflection
