import Reflection.Arguments
import Reflection.Generation
import Reflection.Settings

namespace Reflection

-- Settings on the command line. Definitions come before undefinitions, wherever they stand.
structure SettingsArguments where
  databaseDir : Option Path
  -- the file whose entry is used, if not that of the input
  databaseFile : Option Path
  standard : Option String
  includeDirs : List Path
  definitions : List String
  undefinitions : List String
  features : List String
  gnuExtensions : Bool
  msExtensions : Bool
  msCompatibility : Bool

def SettingsArguments.directives (arguments : SettingsArguments) : List Directive :=
  arguments.definitions.map Directive.ofDefinition ++
    arguments.undefinitions.map Directive.ofUndefinition

def SettingsArguments.settings (arguments : SettingsArguments) : Settings :=
  let standard := match arguments.standard with
    | none => Settings.empty
    | some name => Settings.empty.setStandard name
  { standard with
    includeDirs := arguments.includeDirs
    directives := arguments.directives
    features := arguments.features
    gnuExtensions := standard.gnuExtensions || arguments.gnuExtensions
    msExtensions := arguments.msExtensions
    msCompatibility := arguments.msCompatibility }

structure GenerateArguments where
  file : Option Path
  output : Option Path
  mode : Header.ErrorMode
  settings : SettingsArguments
  selection : SelectionOptions
  format : OutputFormat
  cpp : CppOptions
  gate : Gate
  force : Bool

structure DumpArguments where
  file : Option Path
  layout : Json.Layout
  mode : Header.ErrorMode
  settings : SettingsArguments

inductive Command where
  | generate (arguments : GenerateArguments)
  | dump (arguments : DumpArguments)
  | inspect (artifacts : List Path)

structure Invocation where
  -- shows what is for information only
  verbose : Bool
  command : Command

namespace Invocation

open Arguments

inductive Key where
  | help
  | version
  | verbose
  | debug
  | output
  | format
  | force
  | gate
  | typeMarker
  | anyMarker
  | annotatedMembersOnly
  | publicOnly
  | opaqueMalformed
  | fatalErrors
  | ruleHeader
  | usedNamespace
  | enumAccessor
  | pretty
  | databaseDir
  | databaseFile
  | standard
  | includeDir
  | define
  | undefine
  | feature
  | gnuExtensions
  | msExtensions
  | msCompatibility
  deriving Repr, DecidableEq

def helpRule : OptionRule Key := ⟨.help, some 'h', some "help", .refuse .help⟩

-- Options that may stand before the command or after it.
def commonRules : List (OptionRule Key) :=
  [⟨.verbose, some 'v', some "verbose", .flag⟩, ⟨.debug, none, some "dbg", .flag⟩, helpRule]

def settingsRules : List (OptionRule Key) :=
  [⟨.databaseDir, none, some "database-dir", .single .path⟩,
   ⟨.databaseFile, none, some "database-file", .single .path⟩,
   ⟨.standard, none, some "std", .single .text⟩,
   ⟨.includeDir, some 'I', none, .repeatable .path⟩,
   ⟨.define, some 'D', none, .repeatable .text⟩,
   ⟨.undefine, some 'U', none, .repeatable .text⟩,
   ⟨.feature, some 'f', none, .repeatable .text⟩,
   ⟨.gnuExtensions, none, some "gnu-extensions", .flag⟩,
   ⟨.msExtensions, none, some "msvc-extensions", .flag⟩,
   ⟨.msCompatibility, none, some "msvc-compatibility", .flag⟩]

def fatalErrorsRule : OptionRule Key := ⟨.fatalErrors, none, some "fatal-errors", .flag⟩

def formats : List (String × OutputFormat) := [("cpp", .cpp), ("json", .json)]

def gates : List (String × Gate) := [("timestamp", .timestamp), ("hash", .contentHash)]

def topGrammar : Grammar Key :=
  ⟨commonRules ++ [⟨.version, some 'V', some "version", .refuse .version⟩], .command⟩

def generateGrammar : Grammar Key :=
  ⟨commonRules ++ settingsRules ++
    [fatalErrorsRule,
     ⟨.output, some 'o', some "output", .single .path⟩,
     ⟨.format, none, some "format", .single (.oneOf (formats.map (·.1)))⟩,
     ⟨.force, none, some "force", .flag⟩,
     ⟨.gate, none, some "gate", .single (.oneOf (gates.map (·.1)))⟩,
     ⟨.typeMarker, none, some "type-marker", .single .text⟩,
     ⟨.anyMarker, none, some "any-marker", .flag⟩,
     ⟨.annotatedMembersOnly, none, some "annotated-members-only", .flag⟩,
     ⟨.publicOnly, none, some "public-only", .flag⟩,
     ⟨.opaqueMalformed, none, some "opaque-malformed", .flag⟩,
     ⟨.ruleHeader, none, some "rule-header", .single .text⟩,
     ⟨.usedNamespace, none, some "namespace", .single .text⟩,
     ⟨.enumAccessor, none, some "enum-accessor", .single .text⟩],
   .atMost 1⟩

def dumpGrammar : Grammar Key :=
  ⟨commonRules ++ settingsRules ++
    [fatalErrorsRule, ⟨.pretty, some 'p', some "pretty", .flag⟩], .atMost 1⟩

def inspectGrammar : Grammar Key := ⟨commonRules, .anyNumber⟩

def commandNames : List String := ["generate", "dump", "inspect", "help"]

def path? (given : Given Key) (key : Key) : Option Path := (given.value? key).map Path.mk

def file? (given : Given Key) : Option Path := given.operands.head?.map Path.mk

def isVerbose (given : Given Key) : Bool := given.has .verbose || given.has .debug

-- One of several named values; the default is the first.
def choice {α : Type} (default : α) (names : List (String × α)) (given : Given Key) (key : Key) :
    α :=
  match given.value? key with
  | none => default
  | some name => ((names.find? (·.1 = name)).map (·.2)).getD default

def mode (given : Given Key) : Header.ErrorMode :=
  if given.has .fatalErrors then .fatal else .tolerant

-- An entry of the database can be chosen only if there is a database.
def settings (given : Given Key) : Except Refusal SettingsArguments :=
  if given.has .databaseFile && !given.has .databaseDir then .error .invalid
  else .ok
    { databaseDir := path? given .databaseDir
      databaseFile := path? given .databaseFile
      standard := given.value? .standard
      includeDirs := (given.values .includeDir).map Path.mk
      definitions := given.values .define
      undefinitions := given.values .undefine
      features := given.values .feature
      gnuExtensions := given.has .gnuExtensions
      msExtensions := given.has .msExtensions
      msCompatibility := given.has .msCompatibility }

def selection (given : Given Key) : SelectionOptions :=
  { typeMarker :=
      if given.has .anyMarker then none
      else some ((given.value? .typeMarker).getD defaultTypeMarker)
    annotatedOnly := given.has .annotatedMembersOnly
    publicOnly := given.has .publicOnly
    malformed := if given.has .opaqueMalformed then .rawPiece else .nothing }

def cpp (given : Given Key) : CppOptions :=
  { ruleHeader := (given.value? .ruleHeader).getD CppOptions.default.ruleHeader
    usedNamespace := (given.value? .usedNamespace).getD CppOptions.default.usedNamespace
    enumAccessor := (given.value? .enumAccessor).getD CppOptions.default.enumAccessor }

-- No marker can be asked for together with any marker.
def generateArguments (given : Given Key) : Except Refusal GenerateArguments := do
  let settings ← settings given
  if given.has .anyMarker && given.has .typeMarker then throw .invalid
  return {
    file := file? given
    output := path? given .output
    mode := mode given
    settings
    selection := selection given
    format := choice .cpp formats given .format
    cpp := cpp given
    gate := choice .timestamp gates given .gate
    force := given.has .force }

def dumpArguments (given : Given Key) : Except Refusal DumpArguments := do
  return {
    file := file? given
    layout := if given.has .pretty then .indented else .compact
    mode := mode given
    settings := ← settings given }

-- Help can be asked for on one command, by its name.
def refuseHelp (names : List String) : Refusal :=
  match names with
  | [] => .help
  | [name] => if commandNames.contains name then .help else .invalid
  | _ => .invalid

def ofCommand (name : String) (items : List String) : Except Refusal Invocation :=
  match name with
  | "generate" => do
    let given ← generateGrammar.read none .empty items
    return ⟨isVerbose given, .generate (← generateArguments given)⟩
  | "dump" => do
    let given ← dumpGrammar.read none .empty items
    return ⟨isVerbose given, .dump (← dumpArguments given)⟩
  | "inspect" => do
    let given ← inspectGrammar.read none .empty items
    return ⟨isVerbose given, .inspect (given.operands.map Path.mk)⟩
  | "help" => .error (refuseHelp items)
  | _ => .error .invalid

def ofItems (items : List String) : Except Refusal Invocation := do
  let given ← topGrammar.read none .empty items
  match given.operands with
  | [] => .error .invalid
  | name :: items =>
    let invocation ← ofCommand name items
    return { invocation with verbose := isVerbose given || invocation.verbose }

end Invocation

end Reflection
