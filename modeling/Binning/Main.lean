import Binning.CommandLine.Report

/-!
# The program

The outer layer of the command line: it reads the words of the command line and
the file of the configuration, hands both to `Binning.CommandLine.parse` and
`Binning.CommandLine.run`, and writes what they answer – the output to the
standard output, events and errors to the standard error.

The exit code is 0 when the work is done and the configuration is not at fault, 1
when it is at fault or the work could not be done, 2 when the words of the command
line ask for no command, and 101 when a number left its range or a list had no
room.
-/

namespace Binning

namespace CommandLine

/-- How the program is called. -/
def usage : String :=
  "Usage: binning [-v] <COMMAND>\n\n" ++
  "Commands:\n" ++
  "  edges <CONFIG>               Print the flattened bin edges of every dimension as JSON\n" ++
  "  describe [-f FLAGS] <CONFIG> Print the rebinning tree of every dimension\n" ++
  "  validate <CONFIG>            Check that every dimension is tiled without gaps or overlaps\n"

/-- What a refusal says. -/
def Refusal.message : Refusal → String
  | .help => usage
  | .version => "binning 0.1.0"
  | .nothing => usage
  | .missingCommand => "error: a command is required\n\n" ++ usage
  | .unknownCommand word => "error: unrecognized command '" ++ word ++ "'\n\n" ++ usage
  | .unknownArgument word => "error: unexpected argument '" ++ word ++ "' found\n\n" ++ usage
  | .missingPath => "error: the path of the configuration is missing\n\n" ++ usage
  | .missingValue => "error: a value is required but none was supplied\n\n" ++ usage
  | .unexpectedValue value => "error: unexpected value '" ++ value ++ "' found\n\n" ++ usage
  | .repeated => "error: an option cannot be used multiple times\n\n" ++ usage

/-- A refusal that answers what was asked for. -/
def Refusal.answers (r : Refusal) : Bool := r = .help || r = .version

/-- What a cause says. -/
def Cause.message : Cause → String
  | .context text => text
  | .unreadableFile => "The file cannot be read"
  | .error e => e.message

/-- A chain of causes, the outermost one first. -/
def chainText : List Cause → String
  | [] => "Error"
  | [c] => "Error: " ++ c.message
  | c :: cs => "Error: " ++ c.message ++ "\n\nCaused by:\n    " ++
      "\n    ".intercalate (cs.map Cause.message)

/-- The name of a level. -/
def Level.name : Level → String
  | .error => "ERROR"
  | .warn => "WARN"
  | .info => "INFO"
  | .debug => "DEBUG"

/-- A line that shows an event. -/
def eventLine (e : Event) : String :=
  " ".intercalate
    (Level.name e.level :: e.message :: e.fields.map fun field => field.1 ++ "=" ++ field.2)

/-- The events that are shown: without `verbose`, not those of the lowest level. -/
def shown (verbose : Bool) (events : List Event) : List Event :=
  events.filter fun e => verbose || e.level ≠ .debug

/-- Write what a run leaves behind. -/
def write (verbose : Bool) (r : Run Report) : IO UInt32 := do
  for e in shown verbose r.events do
    IO.eprintln (eventLine e)
  match r.outcome with
  | .error failure =>
    IO.eprintln failure.message
    return 101
  | .ok report =>
    IO.print report.output
    match report.ending with
    | .done valid => return if valid then 0 else 1
    | .failed chain =>
      IO.eprintln (chainText chain)
      return 1

/-- The text of a file, if it can be read. -/
def textOf (path : String) : IO (Option String) := do
  try
    return some (← IO.FS.readFile path)
  catch _ =>
    return none

end CommandLine

end Binning

/-- Run the command that the words of the command line ask for. -/
def main (words : List String) : IO UInt32 := do
  match Binning.CommandLine.parse words with
  | .error refusal =>
    if refusal.answers then
      IO.println refusal.message
      return 0
    else
      IO.eprintln refusal.message
      return 2
  | .ok call =>
    let text ← Binning.CommandLine.textOf call.command.path
    Binning.CommandLine.write call.verbose
      (Binning.CommandLine.run (fun _ => text) call.command)
