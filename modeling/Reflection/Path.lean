import Reflection.Text

namespace Reflection

structure Path where
  text : String
  deriving Repr, DecidableEq

namespace Path

inductive Component where
  | root
  -- a dot that a relative path starts with
  | current
  | parent
  | name (name : List Char)
  deriving Repr, DecidableEq

def hasRoot (path : Path) : Bool := path.text.toList.head? = some '/'

-- What stands between the slashes; nothing between two of them is a segment too.
def segments (path : Path) : List (List Char) := Text.splitOn '/' path.text.toList

def componentOf (segment : List Char) : Option Component :=
  if segment = [] ∨ segment = ['.'] then none
  else if segment = ['.', '.'] then some .parent
  else some (.name segment)

def components (path : Path) : List Component :=
  let start :=
    if path.hasRoot then [Component.root]
    else if path.segments.head? = some ['.'] then [.current]
    else []
  start ++ path.segments.filterMap componentOf

-- Doubled slashes, dots inside and a slash at the end do not count.
def same (first second : Path) : Bool := first.components = second.components

-- Does the path end with all components of `tail`?
def endsWith (path tail : Path) : Bool := tail.components.isSuffixOf path.components

-- A path seen from a directory; a path with a root stays as it is.
def join (directory path : Path) : Path :=
  if path.hasRoot then path
  else if directory.text.isEmpty || directory.text.toList.getLast? = some '/' then
    ⟨directory.text ++ path.text⟩
  else ⟨directory.text ++ "/" ++ path.text⟩

-- The last component, if it is a name.
def fileName? (path : Path) : Option (List Char) :=
  match path.components.getLast? with
  | some (.name name) => some name
  | _ => none

-- What follows the last dot of the file name. A dot at its start does not count.
def extension? (path : Path) : Option (List Char) :=
  match path.fileName? with
  | some (_ :: name) => if name.contains '.' then some (Text.lastPart ['.'] name) else none
  | _ => none

def hasExtension (path : Path) (name : String) : Bool :=
  (path.extension?.map fun ending => ending.map Char.toLower) = some name.toList

end Path

end Reflection
