/-
Running a comparison of two files.

Settings that contradict each other are refused before any file is touched.  Then the left
file is read and understood, and only then the right one.  How files are read is left to
the caller, as a function in any monad: the command line reads from the disk, and a folder
held in memory does as well.

What a run finds out is apart from what it prints.  `Settings.outcome` looks at the
differences, `Settings.shown` at the view.
-/
import YamlDelta.Command.Folder
import YamlDelta.Command.Settings
import YamlDelta.Markup.Read
import YamlDelta.View.Summary
import YamlDelta.View.Unified

namespace YamlDelta.Command

/-- What a run finds out. -/
structure Outcome where
  hasDifferences : Bool
  /-- 1 if differences were found and are a failure, 0 otherwise. -/
  exitStatus : Nat
deriving Repr, DecidableEq

/-- What a run finds out, and what it prints. -/
structure Report where
  outcome : Outcome
  output : String
deriving Repr, DecidableEq

/-- Why there is no comparison. -/
inductive RunFault where
  | settings (fault : SettingsFault)
  | file (name : String) (fault : FileFault)
  | content (fault : ReadFault)
deriving Repr, DecidableEq

namespace RunFault

/-- What underlies a fault, if its message only repeats it. -/
def cause? : RunFault → Option String
  | file _ fault => some fault.message
  | content (.encoding fault) => some fault.message
  | _ => none

/-- The fault itself in words. -/
def reason : RunFault → String
  | settings fault => fault.message
  | file name fault => "failed to read " ++ Text.quoted name ++ ": " ++ fault.message
  | content fault => fault.message

/-- The fault in words, with what was being done and with what underlies it. -/
def message (f : RunFault) : String :=
  match f with
  | settings _ => f.reason
  | _ => "failed to compare files: " ++ f.reason ++ (f.cause?.elim "" (": " ++ ·))

end RunFault

/-- Each line of a text ends, and so does a text that has any. -/
def endLine (s : String) : String :=
  if s.isEmpty then s else s ++ "\n"

namespace Settings

/-- The differences of two streams. -/
def diff (s : Settings) (l r : Stream) : StreamDiff :=
  .ofStreams s.compareOptions l r

/-- What the differences mean for the run. -/
def outcome (s : Settings) (d : StreamDiff) : Outcome :=
  ⟨d.hasDifferences, if s.exitCode && d.hasDifferences then 1 else 0⟩

/-- The view of the differences.  The unified view of equal streams is empty. -/
def shown (s : Settings) (terminal : Bool) (l r : Stream) (d : StreamDiff) : String :=
  match s.view with
  | .unified => if d.hasDifferences then Unified.render (s.palette terminal) l r d else ""
  | .list => ListView.render (s.listOptions terminal) d
  | .stat => Summary.stat d
  | .json => Summary.json d

/-- Compare two streams. -/
def report (s : Settings) (terminal : Bool) (l r : Stream) : Report :=
  let d := s.diff l r
  ⟨s.outcome d, endLine (s.shown terminal l r d)⟩

end Settings

/-! ### From files -/

/-- How files are read. -/
abbrev Reader (m : Type → Type) := String → m (Except FileFault (List UInt8))

/-- The text of a file as a stream. -/
def parse (name : String) (bytes : List UInt8) : Except RunFault Stream :=
  match Text.decodeUtf8 bytes with
  | .error _ => .error (.file name .notText)
  | .ok s => (Stream.ofText s).mapError .content

/-- Read a file. -/
def load {m : Type → Type} [Monad m] (read : Reader m) (name : String) :
    m (Except RunFault Stream) := do
  match ← read name with
  | .error fault => return .error (.file name fault)
  | .ok bytes => return parse name bytes

/-- Compare two files as the settings say. -/
def run {m : Type → Type} [Monad m] (read : Reader m) (terminal : Bool) (s : Settings) :
    m (Except RunFault Report) := do
  match s.fault? with
  | some fault => return .error (.settings fault)
  | none =>
    match ← load read s.left with
    | .error fault => return .error fault
    | .ok l =>
      match ← load read s.right with
      | .error fault => return .error fault
      | .ok r => return .ok (s.report terminal l r)

/-- Compare two files and write what there is to print.  Writing is left to the caller too. -/
def runTo {m : Type → Type} [Monad m] (read : Reader m) (write : String → m Unit)
    (terminal : Bool) (s : Settings) : m (Except RunFault Outcome) := do
  match ← run read terminal s with
  | .error fault => return .error fault
  | .ok report =>
    unless report.output.isEmpty do
      write report.output
    return .ok report.outcome

end YamlDelta.Command
