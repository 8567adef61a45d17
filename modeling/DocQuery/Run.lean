import DocQuery.Build
import DocQuery.Invocation
import DocQuery.Report
import DocQuery.Text.Blank

/-!
# Runs

A run carries out an invocation on the texts of its files. It has no other input, and its result is all that it shows:
the exit code and the two streams of output.
-/

namespace DocQuery

structure RunResult where
  exit : Nat
  stdout : String := ""
  stderr : String := ""
deriving DecidableEq, Repr

namespace RunResult

def ofLine (line : String) : RunResult := { exit := 0, stdout := line ++ "\n" }

/-- The lines of a text after its first, each with a margin in front. -/
def hang (margin : String) (text : String) : String := text.replace "\n" ("\n" ++ margin)

/-- A cause among several has its number in a column of five. -/
def numbered : Nat → List String → List String
  | _, [] => []
  | n, cause :: rest =>
    let number := toString n
    ("".pushn ' ' (5 - number.length) ++ number ++ ": " ++ hang "       " cause) :: numbered (n + 1) rest

/-- The causes behind a message, innermost last. -/
def causes : List String → String
  | [] => ""
  | [cause] => "\n\nCaused by:\n    " ++ hang "    " cause
  | several => "\n\nCaused by:\n" ++ "\n".intercalate (numbered 0 several)

/-- A failed run. The report on a tree that does not compile comes first. -/
def ofChain (report : String) (chain : List String) : RunResult :=
  match chain with
  | [] => { exit := 1, stderr := report }
  | message :: rest => { exit := 1, stderr := report ++ "Error: " ++ message ++ causes rest ++ "\n" }

end RunResult

namespace Settings

/-- The dialect of a run: that of its file, with the choices of the command line put over it. -/
def dialect (s : Settings) (file : FileText) : Except Failure Dialect := do
  let given ← match s.dialectFile with
    | none => pure {}
    | some _ => Dialect.ofFile file
  return { shape := s.shape.getD given.shape, count := s.count.getD given.count, like := s.like.getD given.like }

/-- How results are shown. Colours are for text only, and for readers that show them. -/
def layout (s : Settings) (showsColors : Bool) : Layout :=
  match s.format.getD .pretty with
  | .json => .compact
  | .pretty => .indented
  | .text => .text (if s.noColor then .label else if showsColors then .color else .hidden)

end Settings

/-- One line on a query, with more numbers if asked for. -/
def Query.summary (q : Query) (verbose : Bool) : String :=
  let entries := q.filter.length
  let brief := q.kind.name ++ " on '" ++ q.collection ++ "' (" ++ toString entries ++ " filter entr"
    ++ (if entries = 1 then "y" else "ies") ++ ")"
  if verbose then
    brief ++ ", " ++ toString q.projection.length ++ " projected, " ++ toString q.order.length ++ " sorted, skip "
      ++ toString q.skip ++ ", limit " ++ toString q.limit
  else brief

namespace Invocation

/-- Why a run ends before it has a query. -/
inductive Stop where
  | dialect (f : Failure)
  | input (e : FileError)
  | noInput
  | unreadable (e : ReadError)
  | refused (e : BuildError)
deriving DecidableEq, Repr

/-- The query of an invocation. `dialectFile` counts only if the invocation names one. -/
def query (i : Invocation) (dialectFile input : FileText) : Except Stop Query := do
  let dialect ← (i.settings.dialect dialectFile).mapError .dialect
  let text ← input.mapError .input
  if Text.allBlank text then .error .noInput
  let tree ← (Tree.ofText text).mapError .unreadable
  (compile dialect tree).mapError .refused

/-- The messages of a failed run, outermost first. -/
def Stop.chain : Stop → List String
  | .dialect f => f.chain
  | .input e => (Failure.file e).chain
  | .noInput => ["No tree given on input"]
  | .unreadable e => ("Compile error: " ++ (Failure.read e).message) :: (Failure.read e).chain
  | .refused e => ("Compile error: " ++ e.message) :: (Failure.build e).chain

/-- What an invocation shows. -/
def run (i : Invocation) (showsColors : Bool) (dialectFile input : FileText) : RunResult :=
  let layout := i.settings.layout showsColors
  match i.query dialectFile input with
  | .ok q =>
    match i.action with
    | .compile => .ofLine (layout.document q.toDocument)
    | .check => .ofLine (layout.success (q.summary i.settings.verbose))
  | .error (.refused e) => .ofChain (layout.error e.message ++ "\n") (Stop.refused e).chain
  | .error stop => .ofChain "" stop.chain

end Invocation

/-- The exit code of a command line that is not carried out. -/
def Refusal.exit : Refusal → Nat
  | .help => 0
  | .wrong => 2

end DocQuery
