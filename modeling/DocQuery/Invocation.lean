import DocQuery.Dialect

/-!
# Command lines

A command line names an action, perhaps a file, and options, which may stand before or after the action. It is read
by one run over its words. An option may be given once on each side of the action, and what is given after the
action counts. In place of the action, `help` asks for help on the words after it.
-/

namespace DocQuery

inductive Format where
  | json
  | pretty
  | text
deriving DecidableEq, Repr

inductive Action where
  | compile
  | check
deriving DecidableEq, Repr

/-- What the options of a command line say. -/
structure Settings where
  verbose : Bool := false
  noColor : Bool := false
  format : Option Format := none
  dialectFile : Option String := none
  shape : Option OutputShape := none
  count : Option CountStyle := none
  like : Option LikeStyle := none
deriving DecidableEq, Repr, Inhabited

structure Invocation where
  settings : Settings
  action : Action
  file : Option String
deriving DecidableEq, Repr

def Action.ofName? : String → Option Action
  | "compile" => some .compile
  | "check" => some .check
  | _ => none

/-- Why a command line is not carried out. -/
inductive Refusal where
  | help
  | wrong
deriving DecidableEq, Repr

/-- What comes of asking for help on the given topics: there is help on the whole, on an action, and on help. -/
def Refusal.ofTopics : List String → Refusal
  | [] => .help
  | [topic] => if topic = "help" ∨ (Action.ofName? topic).isSome then .help else .wrong
  | _ => .wrong

namespace Settings

/-- What is given after the action, and for the rest what is given before it. -/
def merge (before after : Settings) : Settings where
  verbose := before.verbose || after.verbose
  noColor := before.noColor || after.noColor
  format := after.format.or before.format
  dialectFile := after.dialectFile.or before.dialectFile
  shape := after.shape.or before.shape
  count := after.count.or before.count
  like := after.like.or before.like

end Settings

/-! ## Options -/

/-- An option that takes a value. -/
inductive ValueOption where
  | format
  | dialect
  | shape
  | count
  | like
deriving DecidableEq, Repr

namespace ValueOption

def ofLong? : String → Option ValueOption
  | "format" => some .format
  | "dialect" => some .dialect
  | "shape" => some .shape
  | "count-style" => some .count
  | "like-style" => some .like
  | _ => none

def ofShort? (c : Char) : Option ValueOption :=
  if c = 'f' then some .format else if c = 'd' then some .dialect else none

end ValueOption

/-- The value of a setting that is given once. -/
def Settings.once {α : Type} (given : Option α) (value : Option α) : Except Refusal (Option α) :=
  match given, value with
  | none, some value => .ok (some value)
  | _, _ => .error .wrong

namespace Settings

def formatOf? : String → Option Format
  | "json" => some .json
  | "pretty" => some .pretty
  | "text" => some .text
  | _ => none

def shapeOf? : String → Option OutputShape
  | "wire" => some .wire
  | "criteria" => some .criteria
  | _ => none

def countOf? : String → Option CountStyle
  | "pipeline" => some .pipeline
  | "exists" => some .existence
  | _ => none

def likeOf? : String → Option LikeStyle
  | "regex" => some .regex
  | "literal" => some .literal
  | _ => none

/-- The name of a file is not empty. -/
def fileOf? (name : String) : Option String := if name.isEmpty then none else some name

def set (s : Settings) (option : ValueOption) (value : String) : Except Refusal Settings :=
  match option with
  | .format => do return { s with format := ← once s.format (formatOf? value) }
  | .dialect => do return { s with dialectFile := ← once s.dialectFile (fileOf? value) }
  | .shape => do return { s with shape := ← once s.shape (shapeOf? value) }
  | .count => do return { s with count := ← once s.count (countOf? value) }
  | .like => do return { s with like := ← once s.like (likeOf? value) }

def setNoColor (s : Settings) : Except Refusal Settings :=
  if s.noColor then .error .wrong else .ok { s with noColor := true }

end Settings

/-! ## Words -/

namespace Invocation

/-- What has been read of a command line. `current` are the settings on this side of the action. -/
structure Reading where
  before : Settings := {}
  current : Settings := {}
  action : Option Action := none
  file : Option String := none
  /-- The option whose value comes next. -/
  awaiting : Option ValueOption := none
  /-- No more options are to come. -/
  operandsOnly : Bool := false

namespace Reading

def setOption (r : Reading) (option : ValueOption) (value : String) : Except Refusal Reading := do
  return { r with current := ← r.current.set option value, awaiting := none }

/-- An option by its long name, with the value that is attached to it. -/
def longOption (r : Reading) (name : String) (attached : Option String) : Except Refusal Reading :=
  match ValueOption.ofLong? name, attached with
  | some option, some value => r.setOption option value
  | some option, none => .ok { r with awaiting := some option }
  | none, some _ => .error .wrong
  | none, none =>
    match name with
    | "verbose" => .ok { r with current := { r.current with verbose := true } }
    | "no-color" => do return { r with current := ← r.current.setNoColor }
    | "help" => .error .help
    | _ => .error .wrong

/-- Options by their letters. The rest of the letters is the value of an option that takes one. -/
def shortOptions (r : Reading) : List Char → Except Refusal Reading
  | [] => .ok r
  | c :: rest =>
    match ValueOption.ofShort? c, rest with
    | some option, [] => .ok { r with awaiting := some option }
    | some option, '=' :: value => r.setOption option (String.ofList value)
    | some option, value => r.setOption option (String.ofList value)
    | none, rest =>
      if c = 'v' then shortOptions { r with current := { r.current with verbose := true } } rest
      else if c = 'h' then .error .help
      else .error .wrong

/-- A word that is no option: the action first, then the file. -/
def operand (r : Reading) (word : String) : Except Refusal Reading :=
  match r.action with
  | some _ => do return { r with file := ← Settings.once r.file (Settings.fileOf? word) }
  | none =>
    match r.operandsOnly, Action.ofName? word with
    | false, some action => .ok { r with before := r.current, current := {}, action := some action }
    | _, _ => .error .wrong

/-- A name, and the value behind the first equality sign. -/
def splitAttached (cs : List Char) : String × Option String :=
  match cs.dropWhile (· ≠ '=') with
  | [] => (String.ofList cs, none)
  | _ :: value => (String.ofList (cs.takeWhile (· ≠ '=')), some (String.ofList value))

/-- A word that an option could be: a dash and something more. -/
def isDashed : List Char → Bool
  | '-' :: _ :: _ => true
  | _ => false

def step (r : Reading) (word : String) : Except Refusal Reading :=
  match r.awaiting with
  | some option => if isDashed word.toList then .error .wrong else r.setOption option word
  | none =>
    if r.operandsOnly then r.operand word
    else match word.toList with
      | ['-', '-'] => .ok { r with operandsOnly := true }
      | '-' :: '-' :: rest =>
        let (name, attached) := splitAttached rest
        r.longOption name attached
      | '-' :: c :: rest => r.shortOptions (c :: rest)
      | _ => r.operand word

/-- Where an action can stand, `help` asks for help on the words after it. -/
def asksForHelp (r : Reading) (word : String) : Bool :=
  word == "help" && r.action.isNone && r.awaiting.isNone && !r.operandsOnly

def readWords (r : Reading) : List String → Except Refusal Reading
  | [] => .ok r
  | word :: rest =>
    if r.asksForHelp word then .error (.ofTopics rest)
    else do readWords (← r.step word) rest

end Reading

/-- The words of a command line. -/
def ofWords (words : List String) : Except Refusal Invocation := do
  let r ← Reading.readWords {} words
  match r.action, r.awaiting with
  | some action, none => return ⟨r.before.merge r.current, action, r.file⟩
  | _, _ => .error .wrong

end Invocation

end DocQuery
