/-
Command line arguments, one by one.

An argument is a path, or begins with a hyphen and names options: `--name`, `--name=value`,
or single letters behind one hyphen.  A lone hyphen is a path, and after `--` everything is.
Options with a value take it from behind the `=` or from the next argument, unless that
looks like an option itself.

Recognising arguments goes from left to right up to the first one that has no place.  What
the recognised ones ask for is looked at afterwards; here nobody minds an option that is
repeated or a value that is wrong.
-/

namespace YamlDelta.Command

/-- Options without a value. -/
inductive Flag where
  /-- Differences are a failure. -/
  | exitCode
  /-- Compare sequences up to the order of their items. -/
  | ignoreOrder
  /-- List the differences. -/
  | list
  /-- List paths only. -/
  | pathOnly
  /-- List lines and kinds as well. -/
  | metadata
  /-- Only count the differences. -/
  | stat
  /-- Say what is being done. -/
  | verbose
deriving Repr, DecidableEq

/-- Options with a value. -/
inductive Choice where
  | color
  | format
deriving Repr, DecidableEq

/-- What an option stands for. -/
inductive Meaning where
  | flag (f : Flag)
  | choice (c : Choice)
  | help
  | version
deriving Repr, DecidableEq

namespace Meaning

/-- The long name of an option, without its hyphens. -/
def name : Meaning → String
  | flag .exitCode => "exit-code"
  | flag .ignoreOrder => "ignore-order"
  | flag .list => "list"
  | flag .pathOnly => "path-only"
  | flag .metadata => "metadata"
  | flag .stat => "stat"
  | flag .verbose => "verbose"
  | choice .color => "color"
  | choice .format => "format"
  | help => "help"
  | version => "version"

/-- The letter of an option.  Options with a value have none. -/
def letter? : Meaning → Option Char
  | flag .exitCode => some 'e'
  | flag .ignoreOrder => some 'i'
  | flag .list => some 'l'
  | flag .pathOnly => some 'p'
  | flag .metadata => some 'm'
  | flag .stat => some 's'
  | flag .verbose => some 'v'
  | choice _ => none
  | help => some 'h'
  | version => some 'V'

def all : List Meaning :=
  [flag .exitCode, flag .ignoreOrder, choice .color, flag .list, flag .pathOnly, flag .metadata,
    flag .stat, choice .format, flag .verbose, help, version]

/-- The option with a long name. -/
def ofName? (s : String) : Option Meaning :=
  all.find? (·.name == s)

/-- The option with a letter. -/
def ofLetter? (c : Char) : Option Meaning :=
  all.find? (·.letter? == some c)

end Meaning

/-! ### The form of an argument -/

/-- What an argument looks like. -/
inductive Form where
  | plain
  /-- Two hyphens alone. -/
  | separator
  | long (name : String) (value : Option String)
  | short (letters : List Char)
deriving Repr, DecidableEq

/-- The form of an argument. -/
def Form.of (arg : String) : Form :=
  match arg.toList with
  | ['-', '-'] => separator
  | '-' :: '-' :: cs =>
    let name := String.ofList (cs.takeWhile (· != '='))
    match cs.dropWhile (· != '=') with
    | [] => long name none
    | _ :: value => long name (some (String.ofList value))
  | '-' :: c :: cs => short (c :: cs)
  | _ => plain

/-! ### Recognising -/

/-- Something that the arguments ask for. -/
inductive Item where
  | path (name : String)
  | flag (f : Flag)
  /-- An option and its value behind the `=`. -/
  | attached (c : Choice) (value : String)
  /-- An option and the value in the next argument, if there is one. -/
  | apart (c : Choice) (value : Option String)
  | help
  | version
deriving Repr, DecidableEq

/-- Why an argument has no place among the others. -/
inductive Misfit where
  /-- No option has this name, or there are paths enough. -/
  | unknown (argument : String)
  /-- The option takes no value. -/
  | surplusValue (argument : String)
deriving Repr, DecidableEq

/-- The items of some arguments, up to the first that is a misfit. -/
structure Items where
  items : List Item
  misfit : Option Misfit
deriving Repr, DecidableEq

namespace Items

def none : Items := ⟨[], .none⟩

def stop (m : Misfit) : Items := ⟨[], some m⟩

def cons (i : Item) (is : Items) : Items := { is with items := i :: is.items }

/-- Items followed by others.  Nothing follows a misfit. -/
def append (is : Items) (next : Items) : Items :=
  match is.misfit with
  | some _ => is
  | .none => ⟨is.items ++ next.items, next.misfit⟩

end Items

/-- The items of letters behind a hyphen. -/
def recogniseLetters : List Char → Items
  | [] => .none
  | c :: cs =>
    match Meaning.ofLetter? c with
    | some (.flag f) => (recogniseLetters cs).cons (.flag f)
    | some .help => (recogniseLetters cs).cons .help
    | some .version => (recogniseLetters cs).cons .version
    | some (.choice _) | none => .stop (.unknown (String.ofList ['-', c]))

/-- The items of arguments, after so many paths.  Once the options have ended, everything is a
path. -/
def recogniseFrom (ended : Bool) (paths : Nat) : List String → Items
  | [] => .none
  | arg :: args =>
    match if ended then .plain else Form.of arg with
    | .plain =>
      if paths < 2 then (recogniseFrom ended (paths + 1) args).cons (.path arg)
      else .stop (.unknown arg)
    | .separator => recogniseFrom true paths args
    | .short letters => (recogniseLetters letters).append (recogniseFrom ended paths args)
    | .long name value =>
      match Meaning.ofName? name, value with
      | none, _ => .stop (.unknown arg)
      | some (.choice c), some v => (recogniseFrom ended paths args).cons (.attached c v)
      | some (.choice c), none =>
        match args with
        | [] => .cons (.apart c none) .none
        | v :: rest =>
          if Form.of v = .plain then (recogniseFrom ended paths rest).cons (.apart c (some v))
          else (recogniseFrom ended paths (v :: rest)).cons (.apart c none)
      | some _, some _ => .stop (.surplusValue arg)
      | some (.flag f), none => (recogniseFrom ended paths args).cons (.flag f)
      | some .help, none => (recogniseFrom ended paths args).cons .help
      | some .version, none => (recogniseFrom ended paths args).cons .version

/-- The items of a command line. -/
def recognise (args : List String) : Items :=
  recogniseFrom false 0 args

end YamlDelta.Command
