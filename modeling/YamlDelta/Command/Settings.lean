/-
Settings: what a command line asks for as a whole.

Items are taken in from left to right.  An option may be given once, a value must be one of
those the option knows, and a path must not be empty; the first item that fails decides.
A misfit among the arguments comes after the items before it, with one exception: a value
or path that stands on its own is only looked at when the next argument has been
recognised, so one directly before a misfit is never looked at.

Settings that were read may still contradict each other.  `Settings.fault?` says how.
-/
import YamlDelta.Command.Argument
import YamlDelta.Compare.Nodes
import YamlDelta.View.List

namespace YamlDelta.Command

/-- When colours are used. -/
inductive ColorMode where
  /-- On a terminal. -/
  | auto
  | always
  | never
deriving Repr, DecidableEq

def ColorMode.name : ColorMode → String
  | auto => "auto"
  | always => "always"
  | never => "never"

def ColorMode.ofName? (s : String) : Option ColorMode :=
  [auto, always, never].find? (·.name == s)

/-- Whether the output is for people or for programs. -/
inductive OutputFormat where
  | text
  | json
deriving Repr, DecidableEq

def OutputFormat.name : OutputFormat → String
  | text => "text"
  | json => "json"

def OutputFormat.ofName? (s : String) : Option OutputFormat :=
  [text, json].find? (·.name == s)

/-- The ways to show a comparison. -/
inductive View where
  | unified
  | list
  | stat
  | json
deriving Repr, DecidableEq

/-- What to compare and how to show it. -/
structure Settings where
  left : String
  right : String
  exitCode : Bool
  ignoreOrder : Bool
  list : Bool
  pathOnly : Bool
  metadata : Bool
  stat : Bool
  verbose : Bool
  color : ColorMode
  format : OutputFormat
deriving Repr, DecidableEq

/-! ### Reading settings -/

/-- Why a command line is no settings. -/
inductive Stop where
  | misfit (m : Misfit)
  /-- Fewer than two paths. -/
  | missingPath
  /-- A value that is missing, unknown or empty. -/
  | invalidValue (value : String)
  | repeated (option : Meaning)
  | help
  | version
deriving Repr, DecidableEq

/-- The items taken in so far. -/
structure Draft where
  paths : List String
  flags : List Flag
  color : Option ColorMode
  format : Option OutputFormat

namespace Draft

def empty : Draft := ⟨[], [], none, none⟩

/-- Choose a value for an option with values. -/
def choose (c : Choice) (value : String) (d : Draft) : Except Stop Draft :=
  match c with
  | .color =>
    if d.color.isSome then .error (.repeated (.choice c))
    else
      match ColorMode.ofName? value with
      | none => .error (.invalidValue value)
      | some m => .ok { d with color := some m }
  | .format =>
    if d.format.isSome then .error (.repeated (.choice c))
    else
      match OutputFormat.ofName? value with
      | none => .error (.invalidValue value)
      | some f => .ok { d with format := some f }

/-- Take an item in. -/
def takeIn (d : Draft) : Item → Except Stop Draft
  | .path p =>
    if p.isEmpty then .error (.invalidValue p) else .ok { d with paths := d.paths ++ [p] }
  | .flag f =>
    if f ∈ d.flags then .error (.repeated (.flag f)) else .ok { d with flags := f :: d.flags }
  | .attached c v | .apart c (some v) => d.choose c v
  | .apart _ none => .error (.invalidValue "")
  | .help => .error .help
  | .version => .error .version

/-- The settings of a complete draft.  Colours are automatic and the output is text unless the
draft says otherwise. -/
def settings (d : Draft) : Except Stop Settings :=
  match d.paths with
  | [l, r] =>
    .ok {
      left := l
      right := r
      exitCode := .exitCode ∈ d.flags
      ignoreOrder := .ignoreOrder ∈ d.flags
      list := .list ∈ d.flags
      pathOnly := .pathOnly ∈ d.flags
      metadata := .metadata ∈ d.flags
      stat := .stat ∈ d.flags
      verbose := .verbose ∈ d.flags
      color := d.color.getD .auto
      format := d.format.getD .text }
  | _ => .error .missingPath

end Draft

/-- The item is an argument of its own and waits for the next one to be recognised. -/
def Item.waits : Item → Bool
  | path _ | apart _ _ => true
  | _ => false

/-- The items that are looked at before a misfit. -/
def beforeMisfit : List Item → List Item
  | [] => []
  | [i] => if i.waits then [] else [i]
  | i :: is => i :: beforeMisfit is

namespace Settings

/-- The settings that arguments ask for. -/
def ofArguments (args : List String) : Except Stop Settings := do
  let ⟨items, misfit⟩ := recognise args
  match misfit with
  | some m =>
    let _ ← (beforeMisfit items).foldlM Draft.takeIn .empty
    .error (.misfit m)
  | none =>
    let d ← items.foldlM Draft.takeIn .empty
    d.settings

end Settings

/-! ### Contradictions -/

/-- How settings contradict each other. -/
inductive SettingsFault where
  | pathOnlyWithMetadata
  | statWithListOptions
  | listOptionsWithoutList
deriving Repr, DecidableEq

/-- The contradiction in words. -/
def SettingsFault.message : SettingsFault → String
  | pathOnlyWithMetadata => "flags --path-only and --metadata are mutually exclusive"
  | statWithListOptions => "flag --stat cannot be used with --path-only or --metadata"
  | listOptionsWithoutList => "flags --metadata and --path-only require --list flag"

namespace Settings

/-- The first contradiction. -/
def fault? (s : Settings) : Option SettingsFault :=
  if s.pathOnly && s.metadata then some .pathOnlyWithMetadata
  else if s.stat && (s.pathOnly || s.metadata) then some .statWithListOptions
  else if !s.list && (s.pathOnly || s.metadata) then some .listOptionsWithoutList
  else none

/-! ### What settings amount to -/

/-- The view asked for; data come before counts, and counts before the list. -/
def view (s : Settings) : View :=
  match s.format with
  | .json => .json
  | .text => if s.stat then .stat else if s.list then .list else .unified

def compareOptions (s : Settings) : CompareOptions :=
  ⟨s.ignoreOrder⟩

/-- Whether output to a terminal, or to something else, is coloured. -/
def palette (s : Settings) (terminal : Bool) : Palette :=
  match s.color with
  | .auto => ⟨terminal⟩
  | .always => ⟨true⟩
  | .never => ⟨false⟩

/-- The list does not count. -/
def listOptions (s : Settings) (terminal : Bool) : ListView.Options :=
  ⟨s.palette terminal, s.pathOnly, s.metadata, false⟩

end Settings

end YamlDelta.Command
