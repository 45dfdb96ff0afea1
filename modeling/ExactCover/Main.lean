import ExactCover.Command.Run

/-!
# The program

Reads the files that the command line names, runs the tasks that they come down to, and prints what
each one reports. Times are measured here; memory is not measured.
-/

namespace ExactCover.Command

/-- A number of thousandths with three places after the point. -/
def thousandths (n : Nat) : String :=
  let places := toString (n % 1000)
  toString (n / 1000) ++ "." ++ String.ofList (List.replicate (3 - places.length) '0') ++ places

/-- The names in a directory, or none if it is no directory that can be read. -/
def namesIn? (path : String) : IO (Option (List String)) := do
  try return some ((← ((← IO.currentDir) / path).readDir).toList.map (·.fileName))
  catch _ => return none

/-- Adds what is at a path, and below it. -/
partial def load (t : FileTree) (path : String) : IO FileTree := do
  let place := FileTree.lexical t.origin path
  match ← namesIn? path with
  | some names =>
    let t := { t with directories := place :: t.directories }
    names.foldlM (fun t name => load t (FileTree.join path [name])) t
  | none =>
    try
      let bytes ← IO.FS.readBinFile path
      return { t with files := (place, bytes) :: t.files }
    catch _ => return t

def loadWay (t : FileTree) (path : String) : IO FileTree := do
  let names := FileTree.components path
  (List.range names.length).foldlM (fun t i => do
    let way := "/".intercalate (names.take (i + 1))
    match ← namesIn? (if way = "" then "/" else way) with
    | some _ =>
      return { t with directories := FileTree.lexical t.origin way :: t.directories }
    | none => return t) t

def Target.path : Target → String
  | .anything path | .sudokus path _ _ | .family path | .directory path => path

/-- Prints what one task reports, and answers the failure that ends the run. -/
def print (settings : Settings) (parseTime : Nat) (task : Task) : IO (Option Failure) := do
  let start ← IO.monoNanosNow
  let (lines, failure) := task.perform settings
  let count := lines.length
  let elapsed := (← IO.monoNanosNow) - start
  let figure : Gauge → String
    | .parseTime => thousandths (parseTime / 1000000)
    | .searchTime => thousandths (elapsed / 1000000)
    | .memory | .residentMemory => "-"
  let rate (explored : Nat) : String :=
    toString (if elapsed = 0 then 0 else explored * 1000000000 / elapsed)
  for line in lines.take count do
    IO.println (line.render figure rate)
  return failure

/-- Prints what the tasks report, up to the first failure. -/
def printAll (settings : Settings) (parseTime : Nat) : List Task → IO (Option Failure)
  | [] => return none
  | task :: rest => do
    match ← print settings parseTime task with
    | some failure => return some failure
    | none => printAll settings parseTime rest

def helpText : String :=
  "Usage: dlx [OPTIONS] [PATH] [COMMAND]\n\nCommands: sudoku, cover, dir\n\n" ++
  "Options: -d, --verify <BOOL>, --stats <BOOL>, -p, --selection <RULE>, --max-nodes <N>"

def runArguments (args : List String) : IO UInt32 := do
  match Invocation.ofArguments args with
  | .error error =>
    IO.eprintln ("error: " ++ error.message)
    return 2
  | .ok .help =>
    IO.println helpText
    return 0
  | .ok (.solve target settings) =>
    let origin := ((FileTree.components (← IO.currentDir).toString).filter (· ≠ ""))
    let start ← IO.monoNanosNow
    let t ← load (← loadWay { files := [], directories := [], origin } target.path) target.path
    let entropy := UInt64.ofNat (← IO.rand 0 (UInt64.size - 1))
    let tasks := Task.ofTarget t entropy target
    let count := tasks.length
    let parseTime := (← IO.monoNanosNow) - start
    match ← printAll settings parseTime (tasks.take count) with
    | none => return 0
    | some failure =>
      IO.eprintln ("Error: " ++ failure.message)
      return 1

end ExactCover.Command

def main (args : List String) : IO UInt32 := ExactCover.Command.runArguments args
