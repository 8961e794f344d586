/-!
# The words of a command line

The program has three commands (`Binning.CommandLine.Command`), each for a
configuration in a file, and `Binning.CommandLine.parse` finds out which one the
words of a command line ask for, or why they ask for none
(`Binning.CommandLine.Refusal`).

* Options stand anywhere, until the word `--` ends them. Letters can share a word,
  and the value of an option is the rest of its word or the next word.
* The path, and an option whose value is the next word, are *pending* until the
  next known option, path or the end (`Binning.CommandLine.Reading.settle`); only
  then are they checked. A word that is not known is refused before that.
-/

namespace Binning

namespace CommandLine

/-- What the program is asked to do with the configuration at a path. -/
inductive Command where
  /-- Print the edges of every dimension. -/
  | edges (path : String)
  /-- Print the description of every dimension. -/
  | describe (path flags : String)
  /-- Print for every dimension whether it is contiguous. -/
  | validate (path : String)
  deriving DecidableEq, Repr

/-- The path of the configuration. -/
def Command.path : Command → String
  | .edges path => path
  | .describe path _ => path
  | .validate path => path

/-- A command and the options that are not its own. -/
structure Invocation where
  /-- Report everything. -/
  verbose : Bool
  command : Command
  deriving DecidableEq, Repr

/-- Why the words of a command line ask for no command. -/
inductive Refusal where
  /-- They ask for help. -/
  | help
  /-- They ask for the version. -/
  | version
  /-- There are none. -/
  | nothing
  /-- There are only options. -/
  | missingCommand
  /-- There is no such command. -/
  | unknownCommand (word : String)
  /-- There is no such option, or no place for another word. -/
  | unknownArgument (word : String)
  /-- The command needs a path. -/
  | missingPath
  /-- An option needs a value, or the path is empty. -/
  | missingValue
  /-- An option takes no value. -/
  | unexpectedValue (value : String)
  /-- An option is given twice. -/
  | repeated
  deriving DecidableEq, Repr

/-! ### Words -/

/-- How a word reads where options are allowed. -/
inductive Word where
  /-- The word `--`. -/
  | endOfOptions
  /-- A long option, perhaps with a value after an equals sign. -/
  | long (name : List Char) (value : Option (List Char))
  /-- One or more letters after a hyphen. -/
  | short (letters : List Char)
  /-- Anything else. -/
  | plain
  deriving DecidableEq, Repr

/-- What stands before the first equals sign, and what stands after it. -/
def splitValue : List Char → List Char × Option (List Char)
  | [] => ([], none)
  | c :: cs =>
    if c = '=' then ([], some cs)
    else
      let (name, value) := splitValue cs
      (c :: name, value)

/-- How a word reads. -/
def Word.of (word : String) : Word :=
  match word.toList with
  | ['-', '-'] => .endOfOptions
  | '-' :: '-' :: cs =>
    let (name, value) := splitValue cs
    .long name value
  | '-' :: c :: cs => .short (c :: cs)
  | _ => .plain

/-! ### The words after a command -/

/-- What waits to be checked. -/
inductive Pending where
  | nothing
  /-- The path. -/
  | path (word : String)
  /-- The describe flags, whose value may still be missing. -/
  | flags (value : Option String)
  deriving DecidableEq, Repr

/-- What has been read after a command. -/
structure Reading where
  verbose : Bool
  path : Option String
  flags : Option String
  pending : Pending
  /-- The path has had its word. -/
  placed : Bool
  deriving DecidableEq, Repr

namespace Reading

/-- Nothing has been read. -/
def start : Reading := ⟨false, none, none, .nothing, false⟩

/-- Set the describe flags, which must not be set. -/
def putFlags (r : Reading) (value : String) : Except Refusal Reading :=
  match r.flags with
  | some _ => .error .repeated
  | none => .ok { r with flags := some value }

/-- Check what is pending. -/
def settle (r : Reading) : Except Refusal Reading :=
  match r.pending with
  | .nothing => .ok r
  | .path "" => .error .missingValue
  | .path word => .ok { r with path := some word, pending := .nothing }
  | .flags none => .error .missingValue
  | .flags (some value) => putFlags { r with pending := .nothing } value

/-- The option for reporting everything. -/
def setVerbose (r : Reading) : Except Refusal Reading := do
  let r ← r.settle
  if r.verbose then throw .repeated else return { r with verbose := true }

/-- The option for describe flags, with a value in the same word. -/
def setFlags (r : Reading) (value : List Char) : Except Refusal Reading := do
  let r ← r.settle
  r.putFlags (String.ofList value)

/-- The option for describe flags, whose value is the next word. -/
def awaitFlags (r : Reading) : Except Refusal Reading := do
  let r ← r.settle
  return { r with pending := .flags none }

/-- The option for help. -/
def askHelp (r : Reading) : Except Refusal Reading := do
  let _ ← r.settle
  throw .help

/-- A long option; `takesFlags` if the command has describe flags. -/
def long (takesFlags : Bool) (r : Reading) (name : List Char) (value : Option (List Char)) :
    Except Refusal Reading :=
  if name = "verbose".toList then
    match value with
    | none => r.setVerbose
    | some v => .error (.unexpectedValue (String.ofList v))
  else if name = "help".toList then
    match value with
    | none => r.askHelp
    | some v => .error (.unexpectedValue (String.ofList v))
  else if takesFlags ∧ name = "flags".toList then
    match value with
    | none => r.awaitFlags
    | some v => r.setFlags v
  else .error (.unknownArgument (String.ofList ('-' :: '-' :: name)))

/-- Letters after a hyphen. -/
def short (takesFlags : Bool) (r : Reading) : List Char → Except Refusal Reading
  | [] => .ok r
  | c :: rest =>
    if c = 'v' then do
      let r ← r.setVerbose
      short takesFlags r rest
    else if c = 'h' then r.askHelp
    else if takesFlags ∧ c = 'f' then
      match rest with
      | [] => r.awaitFlags
      | '=' :: value => r.setFlags value
      | value => r.setFlags value
    else .error (.unknownArgument (String.ofList ['-', c]))

/-- A word that is no option: the path, if it has not had its word. -/
def place (r : Reading) (word : String) : Except Refusal Reading :=
  if r.placed then .error (.unknownArgument word)
  else do
    let r ← r.settle
    return { r with pending := .path word, placed := true }

/-- The words after the end of options. -/
def readPlain (r : Reading) : List String → Except Refusal Reading
  | [] => r.settle
  | w :: ws => do
    let r ← r.place w
    readPlain r ws

/-- The words after a command. -/
def read (takesFlags : Bool) (r : Reading) : List String → Except Refusal Reading
  | [] => r.settle
  | w :: ws =>
    match Word.of w with
    | .endOfOptions => r.readPlain ws
    | .long name value => do
      let r ← r.long takesFlags name value
      read takesFlags r ws
    | .short letters => do
      let r ← r.short takesFlags letters
      read takesFlags r ws
    | .plain =>
      if r.pending = .flags none then
        read takesFlags { r with pending := .flags (some w) } ws
      else do
        let r ← r.place w
        read takesFlags r ws

end Reading

/-! ### The words before a command -/

/-- A word that names a command. -/
inductive Name where
  | edges
  | describe
  | validate
  /-- Asks for help with the command named next. -/
  | help
  deriving DecidableEq, Repr

/-- The command that a word names. -/
def Name.of? (word : String) : Option Name :=
  if word = "edges" then some .edges
  else if word = "describe" then some .describe
  else if word = "validate" then some .validate
  else if word = "help" then some .help
  else none

/-- The words after a request for help: they may name one command. -/
def readHelp : List String → Refusal
  | [] => .help
  | w :: ws =>
    match Name.of? w, ws with
    | none, _ => .unknownCommand w
    | some _, [] => .help
    | some _, w :: _ => .unknownCommand w

/-- A command from the words after its name. -/
def readCommand (verbose : Bool) (name : Name) (ws : List String) :
    Except Refusal Invocation := do
  if name = .help then throw (readHelp ws)
  let r ← Reading.start.read (name = .describe) ws
  match r.path with
  | none => throw .missingPath
  | some path =>
    let command := match name with
      | .describe => Command.describe path (r.flags.getD "")
      | .validate => .validate path
      | _ => .edges path
    return ⟨verbose || r.verbose, command⟩

/-- Letters after a hyphen, before a command. -/
def readLetters (verbose : Bool) : List Char → Except Refusal Bool
  | [] => .ok verbose
  | c :: rest =>
    if c = 'v' then if verbose then .error .repeated else readLetters true rest
    else if c = 'h' then .error .help
    else if c = 'V' then .error .version
    else .error (.unknownArgument (String.ofList ['-', c]))

/-- A long option before a command. -/
def readLong (verbose : Bool) (name : List Char) (value : Option (List Char)) :
    Except Refusal Bool :=
  if name = "verbose".toList ∨ name = "help".toList ∨ name = "version".toList then
    match value with
    | some v => .error (.unexpectedValue (String.ofList v))
    | none =>
      if name = "help".toList then .error .help
      else if name = "version".toList then .error .version
      else if verbose then .error .repeated
      else .ok true
  else .error (.unknownArgument (String.ofList ('-' :: '-' :: name)))

/-- There is no command. -/
def noCommand (verbose : Bool) : Refusal := if verbose then .missingCommand else .nothing

/-- The words up to a command, and those after it. -/
def readWords (verbose : Bool) : List String → Except Refusal Invocation
  | [] => .error (noCommand verbose)
  | w :: ws =>
    match Word.of w with
    | .endOfOptions =>
      -- a command does not stand after the end of options
      match ws with
      | [] => .error (noCommand verbose)
      | w :: _ =>
        .error (if (Name.of? w).isSome then .unknownArgument w else .unknownCommand w)
    | .long name value => do
      let verbose ← readLong verbose name value
      readWords verbose ws
    | .short letters => do
      let verbose ← readLetters verbose letters
      readWords verbose ws
    | .plain =>
      match Name.of? w with
      | some name => readCommand verbose name ws
      | none => .error (.unknownCommand w)

/-- **What the words of a command line ask for.** -/
def parse (words : List String) : Except Refusal Invocation := readWords false words

end CommandLine

end Binning
