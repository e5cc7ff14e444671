import DiamondScript.Files.Path

namespace DiamondScript.Command

inductive Format where
  | give
  | templates
  | json
  deriving DecidableEq, Repr

def Format.ofName? (name : String) : Option Format :=
  if name = "give" then some .give
  else if name = "templates" then some .templates
  else if name = "json" then some .json
  else none

/-- Where the catalog and the settings of a compilation come from, if not from their usual
places. -/
structure Inputs where
  actiondump : Option Path
  config : Option Path
  deriving DecidableEq, Repr

inductive Action where
  | build (source : Path) (inputs : Inputs) (out : Option Path) (format : Format)
  | check (source : Path) (inputs : Inputs)
  | decode (template : String)
  | init (directory : Path)
  | settings (schema : Bool) (config : Option Path)
  deriving DecidableEq, Repr

/-- What a command line asks for. No verbosity at all means quiet. -/
inductive Request where
  | usage
  | help
  | version
  | perform (action : Action) (verbosity : Option Nat)
  deriving DecidableEq, Repr

/-- The flags that may stand before and behind the name of the action. -/
structure Globals where
  verbose : Nat
  quiet : Bool
  deriving DecidableEq, Repr

/-- What an argument may be. -/
inductive ValueKind where
  | path
  | format
  | text
  deriving DecidableEq, Repr

/-- Whether a value is of its kind. A path must not be empty. -/
def ValueKind.admits : ValueKind → String → Bool
  | .path, value => !value.isEmpty
  | .format, value => (Format.ofName? value).isSome
  | .text, _ => true

/-- What an action takes: plain arguments in their order, options with a value, and flags. -/
structure Grammar where
  plain : List ValueKind
  valued : List (String × ValueKind)
  flags : List String

structure Parsed where
  globals : Globals
  plain : List String
  options : List (String × String)
  flags : List String

/-- Parsing stops early at a mistake, or where help or the version is asked for. -/
abbrev Parsing := Except Request

namespace Parsed

def start : Parsed := ⟨⟨0, false⟩, [], [], []⟩

def addVerbose (p : Parsed) : Parsed := { p with globals.verbose := p.globals.verbose + 1 }

def addQuiet (p : Parsed) : Parsing Parsed :=
  if p.globals.quiet then .error .usage else .ok { p with globals.quiet := true }

def addPlain (g : Grammar) (value : String) (p : Parsed) : Parsing Parsed :=
  match g.plain[p.plain.length]? with
  | none => .error .usage
  | some kind =>
    if kind.admits value then .ok { p with plain := p.plain ++ [value] } else .error .usage

def addOption (name : String) (kind : ValueKind) (value : String) (p : Parsed) :
    Parsing Parsed :=
  if (p.options.lookup name).isSome || !kind.admits value then .error .usage
  else .ok { p with options := p.options ++ [(name, value)] }

def addFlag (name : String) (p : Parsed) : Parsing Parsed :=
  if p.flags.contains name then .error .usage else .ok { p with flags := p.flags ++ [name] }

end Parsed

/-- An argument by its form: `--name`, `--name=value`, a cluster of letters, the end of
options, or plain. -/
inductive Arg where
  | long (name : String) (value : Option String)
  | short (letters : List Char)
  | endOfOptions
  | plain (text : String)

def Arg.ofString (s : String) : Arg :=
  match s.toList with
  | ['-', '-'] => .endOfOptions
  | '-' :: '-' :: rest =>
    let name := String.ofList (rest.takeWhile (· ≠ '='))
    match rest.dropWhile (· ≠ '=') with
    | _ :: value => .long name (some (String.ofList value))
    | [] => .long name none
  | '-' :: c :: rest => .short (c :: rest)
  | _ => .plain s

/-- Flags of one letter, several of which may share a hyphen. Only in front of the action's
name is there a letter for the version. -/
def addLetters (top : Bool) : List Char → Parsed → Parsing Parsed
  | [], p => .ok p
  | c :: rest, p =>
    if c = 'v' then addLetters top rest p.addVerbose
    else if c = 'q' then do
      let p ← p.addQuiet
      addLetters top rest p
    else if c = 'h' then .error .help
    else if c = 'V' && top then .error .version
    else .error .usage

def addLongFlag (top : Bool) (g : Grammar) (name : String) (p : Parsed) : Parsing Parsed :=
  if name = "verbose" then .ok p.addVerbose
  else if name = "quiet" then p.addQuiet
  else if name = "help" then .error .help
  else if name = "version" && top then .error .version
  else if g.flags.contains name then p.addFlag name
  else .error .usage

/-- The arguments behind the name of an action. Each is checked where it stands, so a mistake
in front of a call for help is still a mistake. -/
def parseArgs (g : Grammar) : List String → Parsed → Parsing Parsed
  | [], p => .ok p
  | arg :: rest, p =>
    match Arg.ofString arg with
    | .endOfOptions => rest.foldlM (fun p a => p.addPlain g a) p
    | .plain text => do
      let p ← p.addPlain g text
      parseArgs g rest p
    | .short letters => do
      let p ← addLetters false letters p
      parseArgs g rest p
    | .long name (some value) =>
      match g.valued.lookup name with
      | some kind => do
        let p ← p.addOption name kind value
        parseArgs g rest p
      | none => .error .usage
    | .long name none =>
      match g.valued.lookup name with
      | some kind =>
        match rest with
        | next :: rest =>
          match Arg.ofString next with
          | .plain value => do
            let p ← p.addOption name kind value
            parseArgs g rest p
          | _ => .error .usage
        | [] => .error .usage
      | none => do
        let p ← addLongFlag false g name p
        parseArgs g rest p

def onePlain (p : Parsed) : Parsing String :=
  match p.plain with
  | [s] => .ok s
  | _ => .error .usage

def inputsOf (p : Parsed) : Inputs := ⟨p.options.lookup "actiondump", p.options.lookup "config"⟩

def formatOf (p : Parsed) : Format :=
  ((p.options.lookup "format").bind Format.ofName?).getD .give

def inputOptions : List (String × ValueKind) := [("actiondump", .path), ("config", .path)]

/-- The grammar of an action, and how its arguments make a request. -/
def actionNamed? : String → Option (Grammar × (Parsed → Parsing Action))
  | "build" => some (⟨[.path], inputOptions ++ [("out", .path), ("format", .format)], []⟩,
      fun p => do
        let source ← onePlain p
        .ok (.build source (inputsOf p) (p.options.lookup "out") (formatOf p)))
  | "check" => some (⟨[.path], inputOptions, []⟩, fun p => do
      let source ← onePlain p
      .ok (.check source (inputsOf p)))
  | "decode" => some (⟨[.text], [], []⟩, fun p => do
      let template ← onePlain p
      .ok (.decode template))
  | "init" => some (⟨[.path], [], []⟩, fun p => .ok (.init (p.plain.headD ".")))
  | "settings" => some (⟨[], [("config", .path)], ["schema"]⟩, fun p =>
      .ok (.settings (p.flags.contains "schema") (p.options.lookup "config")))
  | _ => none

/-- Quietness and verbosity exclude each other where they stand together. -/
def checkGlobals (g : Globals) : Parsing Unit :=
  if g.quiet && 0 < g.verbose then .error .usage else .ok ()

/-- Of verbosity given twice, the one behind the action's name counts. -/
def verbosity (outer inner : Globals) : Option Nat :=
  if outer.quiet || inner.quiet then none
  else some (if 0 < inner.verbose then inner.verbose else outer.verbose)

def parseAction (outer : Parsed) (name : String) (args : List String) : Parsing Request :=
  match actionNamed? name with
  | none =>
    if name = "help" then
      match args with
      | [] => .error .help
      | [topic] =>
        if (actionNamed? topic).isSome || topic = "help" then .error .help else .error .usage
      | _ => .error .usage
    else .error .usage
  | some (g, make) => do
    let inner ← parseArgs g args .start
    let action ← make inner
    checkGlobals inner.globals
    checkGlobals outer.globals
    .ok (.perform action (verbosity outer.globals inner.globals))

/-- The arguments in front of the name of the action. -/
def parseTop : List String → Parsed → Parsing Request
  | [], _ => .error .usage
  | arg :: rest, p =>
    match Arg.ofString arg with
    | .endOfOptions => .error .usage
    | .plain name => parseAction p name rest
    | .short letters => do
      let p ← addLetters true letters p
      parseTop rest p
    | .long _ (some _) => .error .usage
    | .long name none => do
      let p ← addLongFlag true ⟨[], [], []⟩ name p
      parseTop rest p

/-- What the arguments of the program ask for. -/
def Request.ofArgs (args : List String) : Request :=
  match parseTop args .start with
  | .ok r => r
  | .error r => r

end DiamondScript.Command
