import DocQuery.Cursor
import DocQuery.Dialect.Reader
import DocQuery.Query.Document
import DocQuery.Tree.Reader

/-!
# From text to document

The steps of a compilation put together: a text is read as a tree, the tree is compiled, and the query is written as
a document. `Failure` is an error of any of these steps.
-/

namespace DocQuery

/-- Why the text of a file cannot be had. -/
inductive FileError where
  | notFound
  | isDirectory
  /-- A file is used as the directory of another. -/
  | notDirectory
  | nameTooLong
  | notUtf8
  | system (message : String)
deriving DecidableEq, Repr

def FileError.message : FileError → String
  | .notFound => "No such file or directory (os error 2)"
  | .isDirectory => "Is a directory (os error 21)"
  | .notDirectory => "Not a directory (os error 20)"
  | .nameTooLong => "File name too long (os error 36)"
  | .notUtf8 => "stream did not contain valid UTF-8"
  | .system message => message

/-- The text of a file, or why there is none. -/
abbrev FileText := Except FileError String

/-- The text that bytes encode. -/
def FileText.ofBytes (bytes : ByteArray) : FileText :=
  match String.fromUTF8? bytes with
  | some text => .ok text
  | none => .error .notUtf8

inductive Failure where
  | build (e : BuildError)
  | read (e : ReadError)
  | file (e : FileError)
deriving DecidableEq, Repr

namespace Failure

def message : Failure → String
  | .build e => e.message
  | .read e => "Serialization error: " ++ e.message
  | .file e => "I/O error: " ++ e.message

/-- The message, and those of the causes behind it. -/
def chain : Failure → List String
  | .build e => [e.message]
  | .read e => ["Serialization error: " ++ e.message, e.message]
  | .file e => ["I/O error: " ++ e.message, e.message]

end Failure

/-- The document of a tree. -/
def build (dialect : Dialect) (tree : Tree) : Except BuildError Json := (compile dialect tree).map Query.toDocument

/-- The document of a tree that is given as JSON text. -/
def buildText (dialect : Dialect) (text : String) : Except Failure Json := do
  let tree ← (Tree.ofText text).mapError .read
  (build dialect tree).mapError .build

/-- The dialect that a file holds. -/
def Dialect.ofFile (file : FileText) : Except Failure Dialect := do
  let text ← file.mapError .file
  (Dialect.ofText text).mapError .read

end DocQuery
