import Binning.CommandLine.Arguments
import Binning.Config.Json

/-!
# Running a command

A command reads a configuration, builds its axes and its cut set, and writes what
it is asked for (`Binning.CommandLine.run`). What it needs of its surroundings is
the text of a file, and what it leaves behind is a report
(`Binning.CommandLine.Report`): the text it has written, and how it ended – with a
verdict on the configuration, or with a chain of causes.

An overflow, or a list without room, is no ending of this kind; it is the failure of
the run.
-/

namespace Binning

namespace CommandLine

/-- A link in a chain of causes. -/
inductive Cause where
  /-- What the program was about to do. -/
  | context (text : String)
  /-- A file that cannot be read. -/
  | unreadableFile
  /-- An error of the binning. -/
  | error (e : BinningError)
  deriving DecidableEq

/-- How a command ends. -/
inductive Ending where
  /-- It has done its work; `valid` if the configuration is not at fault. -/
  | done (valid : Bool)
  /-- It could not do its work. The outermost cause comes first. -/
  | failed (chain : List Cause)
  deriving DecidableEq

/-- What a command leaves behind. -/
structure Report where
  /-- The text it has written. -/
  output : String
  ending : Ending
  deriving DecidableEq

namespace Report

/-- Nothing was written, and the work was not done. -/
def failure (chain : List Cause) : Report := ⟨"", .failed chain⟩

end Report

/-! ### Names and edges -/

/-- Members with a member put in its place: names are in ascending order, and a
name that is there already gets the new value. -/
def insertMember {α : Type} (name : String) (a : α) : List (String × α) → List (String × α)
  | [] => [(name, a)]
  | (n, b) :: ms =>
    if name < n then (name, a) :: (n, b) :: ms
    else if name = n then (name, a) :: ms
    else (n, b) :: insertMember name a ms

/-- Members in ascending order of their names, the last one of each name. -/
def sortMembers {α : Type} (ms : List (String × α)) : List (String × α) :=
  ms.foldl (fun sorted m => insertMember m.1 m.2 sorted) []

/-- The edges of named dimensions as a text. -/
def edgesText (names : List String) (edges : List (List Double)) : String :=
  (Json.record (sortMembers (names.zip (edges.map (Json.list Json.double))))).pretty ++ "\n"

/-! ### Commands -/

/-- The verdict on a dimension. -/
def verdictText (name : String) (valid : Bool) : String :=
  name ++ ": " ++ (if valid then "ok" else "not contiguous") ++ "\n"

/-- The verdicts on named trees: their text, and whether all are good. -/
def verdicts : List (String × Node Axis) → Run (String × Bool)
  | [] => return ("", true)
  | (name, tree) :: rest => do
    let valid ← tree.validateContiguity
    let (text, all) ← verdicts rest
    return (verdictText name valid ++ text, valid && all)

/-- The configuration at a path, or why there is none. -/
def load (read : String → Option String) (path : String) : Except (List Cause) Config :=
  match read path with
  | none => .error [.context ("Failed to read binning configuration " ++ path), .unreadableFile]
  | some text =>
    match Config.ofText text with
    | .ok c => .ok c
    | .error e =>
      .error [.context ("Failed to parse binning configuration " ++ path),
        .error (.unreadable e)]

/-- The event that reports a cut set. -/
def cutSetEvent (dimensions : Nat) : Event where
  level := .info
  message := "Built cut set"
  fields := [("dimensions", toString dimensions)]

/-- The cut set of a configuration over its own axes. -/
def build (c : Config) : Run (CutSet Axis) := do
  let axes ← c.buildAxes
  let cuts ← c.buildCutSet axes
  Run.emit (cutSetEvent cuts.size)
  return cuts

/-- A run in which an error handed back ends the command. -/
def catchRefusal (r : Run Report) : Run Report :=
  match r.outcome with
  | .error (.refused e) => ⟨r.events, .ok (Report.failure [.error e])⟩
  | _ => r

/-- What a command leaves behind that does its work on the configuration at a path
and on its cut set. -/
def runOn (read : String → Option String) (path : String)
    (work : Config → CutSet Axis → Run Report) : Run Report :=
  match load read path with
  | .error chain => return Report.failure chain
  | .ok c => catchRefusal do
    let cuts ← build c
    work c cuts

/-- The work of the command for edges. Only contiguous dimensions have edges that
mean something. -/
def writeEdges (c : Config) (cuts : CutSet Axis) : Run Report := do
  let valid ← cuts.validate
  if valid then
    let edges ← cuts.flattenedEdges
    return ⟨edgesText c.names edges, .done true⟩
  else return Report.failure [.context "Binning configuration does not tile its axes"]

/-- The work of the command for a description. -/
def writeDescription (o : DescribeOptions) (cuts : CutSet Axis) : Run Report := do
  let text ← cuts.describe o
  return ⟨text, .done true⟩

/-- The work of the command for verdicts. -/
def writeVerdicts (c : Config) (cuts : CutSet Axis) : Run Report := do
  let (text, valid) ← verdicts (c.names.zip cuts.trees)
  return ⟨text, .done valid⟩

/-- **Run a command.** -/
def run (read : String → Option String) : Command → Run Report
  | .edges path => runOn read path writeEdges
  | .describe path flags =>
    match DescribeOptions.ofFlags flags with
    | .error e => return Report.failure [.error e]
    | .ok o => runOn read path fun _ => writeDescription o
  | .validate path => runOn read path writeVerdicts

end CommandLine

end Binning
