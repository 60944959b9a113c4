import LineBasic.Machine.Session
import LineBasic.Terminal.Directory
import LineBasic.Terminal.Options
import LineBasic.Terminal.Report
import Std.Time.Format

/-!
# The command line

Runs the scripts that are named on the command line, or opens a prompt. This layer reads lines and
files and acts on the events of a machine; what they mean is decided elsewhere.
-/

namespace LineBasic.Terminal

set_option autoImplicit false

def clearScreen : String := "\x1b[2J\x1b[H"

/-- The longest pause, in milliseconds, before the machine is asked again. -/
def pauseSlice : Nat := 50

def OptionFault.message : OptionFault → String
  | unknownArgument => "error: unknown argument"
  | badValue => "error: not a number of steps"
  | missingValue => "error: an option needs a value"
  | givenTwice => "error: an option is given twice"
  | unexpectedValue => "error: an option takes no value"
  | helpWanted => "Usage: linebasic [--cycles N] [--outputs N] [--signed-step] [SCRIPT]..."
  | versionWanted => "linebasic 0.1.0"

/-- Help and version were asked for; anything else is a failure. -/
def OptionFault.exitCode : OptionFault → UInt32
  | helpWanted | versionWanted => 0
  | _ => 2

def write (s : String) : IO Unit := do
  let out ← IO.getStdout
  out.putStr s
  out.flush

/-- The next line of input, or nothing when the terminal is closed. -/
def readLine? (prompt : String) : IO (Option String) := do
  write prompt
  let line ← (← IO.getStdin).getLine
  pure (if line.isEmpty then none else some line)

def now : IO Clock := do
  let time ← Std.Time.DateTime.now
  let nanos := time.toTimestamp.toNanosecondsSinceUnixEpoch.toInt
  pure {
    nanos := nanos.toNat
    millis := nanos / 1000000
    timeOfDay := time.format "HH:mm:ss"
    date := time.format "uuuu-MM-dd" }

/-- A random source that differs from run to run. -/
def freshRandom : IO Random := do
  let bytes ← IO.getRandomBytes 8
  pure (.ofSeed (bytes.foldl (fun seed b => seed * 256 + b.toUInt64) 0))

/-- Runs an action on a file and tells its failure as an error of the program. -/
def onFile {α : Type} (path : String) (act : IO α) : IO (Except Error α) := do
  try pure (.ok (← act))
  catch
    | .noFileOrDirectory .. => pure (.error (fileError path .notFound))
    | e => pure (.error (fileError path (.other (toString e))))

/-- Loads the listing of a program name into a machine. -/
def loadInto (m : Machine) (name : String) : IO Machine := do
  let path := filePath name
  match ← onFile path (IO.FS.readFile path) with
  | .ok source => pure (m.setListing (.ofSource source))
  | .error e => write (report e); pure m

/-- Saves a machine's listing under a program name. -/
def saveFrom (m : Machine) (name : String) : IO Unit := do
  let path := filePath name
  match savedText m.listing with
  | .error e => write (report e)
  | .ok content =>
    match ← onFile path (IO.FS.writeFile path content) with
    | .ok _ => pure ()
    | .error e => write (report e)

/-- Runs a machine until it stops, and says whether an error was shown on the way. There is no
machine when the terminal closed while it waited for input. -/
partial def drive (m : Machine) (failed : Bool) : IO (Option (Machine × Bool)) := do
  let (event, m) := m.execute (← now)
  match event with
  | .stopped => pure (some (m, failed))
  | .running => drive m failed
  | .print s => write s; drive m failed
  | .cls => write clearScreen; drive m failed
  | .sleep nanos => IO.sleep (min (nanos / 1000000) pauseSlice).toUInt32; drive m failed
  | .error e => write (report e); drive m true
  | .input prompt =>
    match ← readLine? prompt with
    | some line => drive (m.enter line) failed
    | none => pure none
  | .load name => drive (← loadInto m name) failed
  | .save name => saveFrom m name; drive m failed

/-- Runs scripts one after another on one machine. -/
def runScripts (m : Machine) : List String → IO Unit
  | [] => pure ()
  | path :: paths => do
    match ← onFile path (IO.FS.readFile path) with
    | .error e => write (report e); runScripts m paths
    | .ok source =>
      match m.load source with
      | (.error e, m) => write (report e); runScripts m paths
      | (.ok block, m) =>
        match ← drive (m.run block 0) false with
        | some (m, _) => runScripts m paths
        | none => pure ()

/-- Reads and obeys lines until the terminal closes. -/
partial def converse (m : Machine) (ready : Bool) : IO Unit := do
  let some (m, ready) ← drive m ready | return
  if ready then write "Ready...\n"
  let some line ← readLine? "" | return
  converse (m.enter line) false

end LineBasic.Terminal

open LineBasic LineBasic.Terminal in
def main (args : List String) : IO UInt32 := do
  match Options.read args with
  | .error fault =>
    let out ← if fault.exitCode = 0 then IO.getStdout else IO.getStderr
    out.putStrLn fault.message
    pure fault.exitCode
  | .ok options =>
    let m := Machine.new options.config (← freshRandom)
    if options.scripts.isEmpty then
      write (styled "1" "Line BASIC" ++ "\n")
      converse m true
    else runScripts m options.scripts
    pure 0
