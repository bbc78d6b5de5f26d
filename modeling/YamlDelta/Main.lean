/-
The command line.

Everything that can be decided without touching the system has been decided elsewhere; here
are the arguments, the files, the terminal, and the exit status: 0 for a finished run, 1 for
differences that count as a failure or for a run that failed, 2 for arguments that make no
sense.
-/
import YamlDelta.Command.Run

namespace YamlDelta.Command

/-- The options in one line. -/
def usage : String :=
  "Usage: yaml-delta [OPTIONS] <LEFT> <RIGHT>\n\nOptions:\n" ++
    String.join (Meaning.all.map fun m =>
      "  " ++ (m.letter?.elim "    " fun c => "-" ++ c.toString ++ ", ") ++ "--" ++ m.name ++ "\n")

/-- Why arguments cannot be used, in words. -/
def Stop.message : Stop → String
  | misfit (.unknown arg) => "unexpected argument " ++ Text.quoted arg
  | misfit (.surplusValue arg) => "unexpected value in " ++ Text.quoted arg
  | missingPath => "two paths are required"
  | invalidValue v => "invalid value " ++ Text.quoted v
  | repeated option => "option --" ++ option.name ++ " is given twice"
  | help => usage
  | version => "yaml-delta 0.1.0"

/-- The number of the error that a part of a path is no directory. -/
def notDirectoryCode : UInt32 := 20

/-- What the system says about a file that it does not open.  Some of its numbers come negated. -/
def FileFault.ofError (e : IO.Error) : FileFault :=
  match e with
  | .noFileOrDirectory _ _ _ | .noSuchThing _ _ _ => .missing
  | .inappropriateType _ code _ =>
    if code == notDirectoryCode || -code == notDirectoryCode then .notDirectory else .isDirectory
  | e => .other (toString e)

/-- Read a file from the disk. -/
def readFile : Reader IO := fun name => do
  match ← (IO.FS.readBinFile name).toBaseIO with
  | .ok bytes => return .ok bytes.toList
  | .error e => return .error (.ofError e)

/-- Colours are welcome on the standard output. -/
def onTerminal : IO Bool := do
  if (← IO.getEnv "NO_COLOR").isSome then return false
  (← IO.getStdout).isTty

/-- Run with settings that were understood. -/
def execute (s : Settings) : IO UInt32 := do
  if s.verbose then
    IO.eprintln ("comparing " ++ Text.quoted s.left ++ " with " ++ Text.quoted s.right)
  match ← runTo readFile IO.print (← onTerminal) s with
  | .error fault =>
    IO.eprintln ("Error: " ++ fault.message)
    return 1
  | .ok outcome =>
    if s.verbose then
      IO.eprintln ("finished with status " ++ toString outcome.exitStatus)
    return outcome.exitStatus.toUInt32

end YamlDelta.Command

open YamlDelta.Command in
/-- Compare the two files that the arguments name. -/
def main (args : List String) : IO UInt32 := do
  match Settings.ofArguments args with
  | .ok s => execute s
  | .error .help =>
    IO.print Stop.help.message
    return 0
  | .error .version =>
    IO.println Stop.version.message
    return 0
  | .error stop =>
    IO.eprintln ("error: " ++ stop.message ++ "\n\n" ++ usage)
    return 2
