import Reflection.Header.Expansion
import Reflection.Path

namespace Reflection

inductive Directive where
  -- without a replacement the macro stands for 1
  | define (name : String) (replacement : Option String)
  | undefine (name : String)
  deriving Repr, DecidableEq

namespace Directive

def trimmed (name : List Char) : String := String.ofList (Text.trim name)

-- A definition is a name, or a name and a replacement with an equals sign between them.
def ofDefinition (definition : String) : Directive :=
  match Text.splitOnce '=' definition.toList with
  | some (name, replacement) => define (trimmed name) (some (String.ofList replacement))
  | none => define (trimmed definition.toList) none

def ofUndefinition (name : String) : Directive := undefine (trimmed name.toList)

-- What a macro takes arguments for cannot be substituted token by token.
def apply (macros : Header.Macros) : Directive → Header.Macros
  | define name replacement =>
    if name.toList.contains '(' then macros
    else (name, replacement.getD "1") :: macros.filter (·.1 ≠ name)
  | undefine name => macros.filter (·.1 ≠ name)

def toFlag : Directive → String
  | define name (some replacement) => "-D" ++ name ++ "=" ++ replacement
  | define name none => "-D" ++ name
  | undefine name => "-U" ++ name

end Directive

-- One compiler flag together with its argument.
inductive Flag where
  | includeDir (directory : String)
  | define (definition : String)
  | undefine (name : String)
  | standard (name : String)
  | msExtensions
  | msCompatibility
  | feature (name : String)
  -- the argument is missing
  | incomplete
  -- carries no setting
  | unknown
  deriving Repr, DecidableEq

namespace Flag

def isKnown : Flag → Bool
  | unknown => false
  | _ => true

-- The flags whose argument may also be the next item of the command line.
def splitFlags : List (String × (String → Flag)) :=
  [("-I", includeDir), ("-D", define), ("-U", undefine)]

-- A flag of these with what is attached to it.
def splitFlag? (item : String) : Option ((String → Flag) × List Char) :=
  splitFlags.findSome? fun (start, flag) =>
    (Text.after? start.toList item.toList).map (flag, ·)

def ofItem (item : String) : Flag :=
  match Text.after? "-std=".toList item.toList with
  | some name => standard (String.ofList name)
  | none =>
    if item = "-fms-extensions" then msExtensions
    else if item = "-fms-compatibility" then msCompatibility
    else match Text.after? "-f".toList item.toList with
      | some name => feature (String.ofList name)
      | none => unknown

-- Reads a command line from left to right.
def ofItems : List String → List Flag
  | [] => []
  | item :: items =>
    match splitFlag? item with
    | some (flag, []) =>
      match items with
      | [] => [incomplete]
      | argument :: items => flag argument :: ofItems items
    | some (flag, attached) => flag (String.ofList attached) :: ofItems items
    | none => ofItem item :: ofItems items

end Flag

-- Only the macros change what is read from a header. The others are kept and can be turned back
-- into flags.
structure Settings where
  includeDirs : List Path
  -- in the order in which they take effect
  directives : List Directive
  -- with the GNU names replaced by the standard ones
  standard : Option String
  features : List String
  gnuExtensions : Bool
  msExtensions : Bool
  msCompatibility : Bool
  deriving Repr, DecidableEq

namespace Settings

def empty : Settings := ⟨[], [], none, [], false, false, false⟩

def direct (settings : Settings) (directive : Directive) : Settings :=
  { settings with directives := settings.directives ++ [directive] }

def replaceFirst (wanted replacement text : String) : String :=
  String.ofList (Text.replaceFirst wanted.toList replacement.toList text.toList)

-- The GNU dialect of a standard is that standard with extensions.
def setStandard (settings : Settings) (name : String) : Settings :=
  { settings with
    standard := some (replaceFirst "gnu" "c" name)
    gnuExtensions := settings.gnuExtensions || "gnu".toList.isPrefixOf name.toList }

-- Directories are seen from `base`.
def apply (base : Path) (settings : Settings) : Flag → Settings
  | .includeDir directory =>
    { settings with includeDirs := settings.includeDirs ++ [base.join ⟨directory⟩] }
  | .define definition => settings.direct (.ofDefinition definition)
  | .undefine name => settings.direct (.ofUndefinition name)
  | .standard name => settings.setStandard name
  | .msExtensions => { settings with msExtensions := true }
  | .msCompatibility => { settings with msCompatibility := true }
  | .feature name => { settings with features := settings.features ++ [name] }
  | .incomplete => settings
  | .unknown => settings

def applyAll (base : Path) (settings : Settings) (items : List String) : Settings :=
  (Flag.ofItems items).foldl (apply base) settings

-- The settings of `later` take effect after the others.
def merge (settings later : Settings) : Settings :=
  ⟨settings.includeDirs ++ later.includeDirs, settings.directives ++ later.directives,
    later.standard.or settings.standard, settings.features ++ later.features,
    settings.gnuExtensions || later.gnuExtensions, settings.msExtensions || later.msExtensions,
    settings.msCompatibility || later.msCompatibility⟩

-- The macros that are defined after all directives.
def macros (settings : Settings) : Header.Macros := settings.directives.foldl Directive.apply []

def standardFlag (settings : Settings) : List String :=
  match settings.standard with
  | none => []
  | some name =>
    ["-std=" ++ if settings.gnuExtensions then replaceFirst "c++" "gnu++" name else name]

def toFlags (settings : Settings) : List String :=
  settings.standardFlag ++ settings.includeDirs.map (fun directory => "-I" ++ directory.text) ++
    settings.directives.map Directive.toFlag ++ settings.features.map (fun name => "-f" ++ name) ++
    (if settings.msExtensions then ["-fms-extensions"] else []) ++
    (if settings.msCompatibility then ["-fms-compatibility"] else [])

end Settings

end Reflection
