import PropContract.Injection.Basic

/-!
Arguments of a command line, read from left to right. An option takes the next argument as its
value, unless that looks like an option.
-/

namespace PropContract

inductive RunMode where
  | generate
  | inject
  | ast
  deriving DecidableEq, Repr, Inhabited

def RunMode.ofText? : String → Option RunMode
  | "generate" => some generate
  | "inject" => some inject
  | "ast" => some ast
  | _ => none

inductive OutputStyle where
  | human
  | json
  deriving DecidableEq, Repr, Inhabited

def OutputStyle.ofText? : String → Option OutputStyle
  | "human" => some human
  | "json" => some json
  | _ => none

inductive UsageError where
  | invalidValue
  | unknownArgument
  /-- Something that can be given once is given twice. -/
  | conflict
  | tooManyValues
  | help
  | version
  deriving DecidableEq, Repr

structure Arguments where
  files : List Path := []
  workspace : Option Path := none
  tsconfig : Option Path := none
  mode : Option RunMode := none
  outDir : Option Path := none
  write : Bool := false
  sortProps : Bool := false
  includeComments : Bool := false
  noDocs : Bool := false
  conflict : Option ConflictPolicy := none
  includeUnused : Option Bool := none
  ignore : List String := []
  output : Option OutputStyle := none
  config : Option Path := none
  verbose : Bool := false
  deriving DecidableEq, Repr, Inhabited

namespace Arguments

inductive Setter where
  | workspace | tsconfig | mode | outDir | conflict | includeUnused | ignore | output | config
  deriving DecidableEq, Repr

inductive Flag where
  | write | sortProps | includeComments | noDocs | verbose | help | version
  deriving DecidableEq, Repr

def setterNamed? : String → Option Setter
  | "workspace" => some .workspace
  | "tsconfig" => some .tsconfig
  | "mode" => some .mode
  | "out-dir" => some .outDir
  | "conflict" => some .conflict
  | "include-unused-props" => some .includeUnused
  | "ignore" => some .ignore
  | "output" => some .output
  | "config" => some .config
  | _ => none

def flagNamed? : String → Option Flag
  | "write" => some .write
  | "sort-props" => some .sortProps
  | "include-comments" => some .includeComments
  | "no-jsdoc" => some .noDocs
  | "verbose" => some .verbose
  | "help" => some .help
  | "version" => some .version
  | _ => none

def flagLettered? : Char → Option Flag
  | 'v' => some .verbose
  | 'h' => some .help
  | 'V' => some .version
  | _ => none

def boolOfText? : String → Option Bool
  | "true" => some true
  | "false" => some false
  | _ => none

def once {α : Type} (old new : Option α) : Except UsageError (Option α) :=
  match old, new with
  | some _, _ => .error .conflict
  | none, none => .error .invalidValue
  | none, some value => .ok (some value)

def set (a : Arguments) (value : String) : Setter → Except UsageError Arguments
  | .workspace => do pure { a with workspace := ← once a.workspace (some ⟨value⟩) }
  | .tsconfig => do pure { a with tsconfig := ← once a.tsconfig (some ⟨value⟩) }
  | .mode => do pure { a with mode := ← once a.mode (RunMode.ofText? value) }
  | .outDir => do pure { a with outDir := ← once a.outDir (some ⟨value⟩) }
  | .conflict => do pure { a with conflict := ← once a.conflict (ConflictPolicy.ofText? value) }
  | .includeUnused => do
    pure { a with includeUnused := ← once a.includeUnused (boolOfText? value) }
  | .ignore => .ok { a with ignore := a.ignore ++ [value] }
  | .output => do pure { a with output := ← once a.output (OutputStyle.ofText? value) }
  | .config => do pure { a with config := ← once a.config (some ⟨value⟩) }

def raise (old : Bool) : Except UsageError Bool :=
  if old then .error .conflict else .ok true

def setFlag (a : Arguments) : Flag → Except UsageError Arguments
  | .write => do pure { a with write := ← raise a.write }
  | .sortProps => do pure { a with sortProps := ← raise a.sortProps }
  | .includeComments => do pure { a with includeComments := ← raise a.includeComments }
  | .noDocs => do pure { a with noDocs := ← raise a.noDocs }
  | .verbose => do pure { a with verbose := ← raise a.verbose }
  | .help => .error .help
  | .version => .error .version

structure Waiting where
  setter : Setter
  value : Option String := none
  deriving DecidableEq, Repr

/-- Checks what waits. Only `--include-unused-props` may go without a value. -/
def settle (a : Arguments) : Option Waiting → Except UsageError Arguments
  | none => .ok a
  | some ⟨setter, some value⟩ => a.set value setter
  | some ⟨.includeUnused, none⟩ => a.set "true" .includeUnused
  | some ⟨_, none⟩ => .error .invalidValue

def splitLong (text : List Char) : String × Option String :=
  let name := text.takeWhile (· != '=')
  match text.drop name.length with
  | [] => (String.ofList name, none)
  | _ :: value => (String.ofList name, some (String.ofList value))

def readLong (a : Arguments) (waiting : Option Waiting) (text : List Char) :
    Except UsageError (Arguments × Option Waiting) :=
  let (name, value) := splitLong text
  match setterNamed? name, flagNamed? name, value with
  | some setter, _, some value => do pure (← (← a.settle waiting).set value setter, none)
  | some setter, _, none => do pure (← a.settle waiting, some ⟨setter, none⟩)
  | none, some _, some _ => .error .tooManyValues
  | none, some flag, none => do pure (← (← a.settle waiting).setFlag flag, none)
  | none, none, _ => .error .unknownArgument

def readShort (a : Arguments) (waiting : Option Waiting) :
    List Char → Except UsageError (Arguments × Option Waiting)
  | [] => .ok (a, waiting)
  | c :: cs =>
    match flagLettered? c with
    | none => .error .unknownArgument
    | some flag => do readShort (← (← a.settle waiting).setFlag flag) none cs

def addFile (a : Arguments) (file : String) : Arguments :=
  { a with files := a.files ++ [⟨file⟩] }

def readPlain (a : Arguments) (waiting : Option Waiting) (text : String) :
    Except UsageError (Arguments × Option Waiting) :=
  match waiting with
  | some ⟨setter, none⟩ => .ok (a, some ⟨setter, some text⟩)
  | _ => do pure ((← a.settle waiting).addFile text, none)

/-- Reads arguments; after `--` all of them are files. -/
def readAll (a : Arguments) (waiting : Option Waiting) :
    List String → Except UsageError Arguments
  | [] => a.settle waiting
  | "--" :: rest => do pure (rest.foldl addFile (← a.settle waiting))
  | text :: rest => do
    let (a, waiting) ← match text.toList with
      | '-' :: '-' :: cs => readLong a waiting cs
      | '-' :: c :: cs => readShort a waiting (c :: cs)
      | _ => readPlain a waiting text
    readAll a waiting rest

def read (texts : List String) : Except UsageError Arguments :=
  readAll {} none texts

end Arguments

end PropContract
