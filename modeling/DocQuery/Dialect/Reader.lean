import DocQuery.Dialect
import DocQuery.Json.Source
import DocQuery.ReadError

/-!
# Reading dialects

A dialect is an object with up to three known fields, or an array of up to three items in the same order. What is
not given has its default, and unknown fields are skipped, whatever they hold.
-/

namespace DocQuery

namespace Dialect

/-- One of two choices, by its name or by an object with that name as its only key and nothing under it. -/
def choice {α : Type} (first second : String × α) (value : Json) : Except ReadError α :=
  let named (name : String) : Except ReadError α :=
    if name = first.1 then .ok first.2
    else if name = second.1 then .ok second.2
    else .error (.unknownName name first.1 second.1)
  match value with
  | .str name => named name
  | .obj [(name, held)] => do
    let chosen ← named name
    if held = .null then return chosen else .error (.mismatch held "unit")
  | .obj _ => .error .severalNames
  | found => .error (.mismatch found "string or map")

def setShape (d : Dialect) (value : Json) : Except ReadError Dialect := do
  return { d with shape := ← choice ("wire", OutputShape.wire) ("criteria", .criteria) value }

def setCount (d : Dialect) (value : Json) : Except ReadError Dialect := do
  return { d with count := ← choice ("pipeline", CountStyle.pipeline) ("exists", .existence) value }

def setLike (d : Dialect) (value : Json) : Except ReadError Dialect := do
  return { d with like := ← choice ("regex", LikeStyle.regex) ("literal", .literal) value }

def isKnownField (key : String) : Bool := key == "shape" || key == "count" || key == "like"

def setField (d : Dialect) (key : String) (value : Json) : Except ReadError Dialect :=
  match key with
  | "shape" => d.setShape value
  | "count" => d.setCount value
  | "like" => d.setLike value
  | _ => .ok d

/-- The fields of an object in their order, after known ones that have been read. -/
def setFields (d : Dialect) (read : List String) : List (String × Json) → Except ReadError Dialect
  | [] => .ok d
  | (key, value) :: rest =>
    if isKnownField key then
      if read.contains key then .error (.repeatedField key)
      else do setFields (← d.setField key value) (key :: read) rest
    else setFields d read rest

def ofItems (items : List Json) : Except ReadError Dialect := do
  let d : Dialect ← (["shape", "count", "like"].zip items).foldlM (fun d p => d.setField p.1 p.2) {}
  if items.length ≤ 3 then return d else .error (.tooManyItems items.length)

def ofJson : Json → Except ReadError Dialect
  | .obj fields => setFields {} [] fields
  | .arr items => ofItems items
  | found => .error (.mismatch found "struct Dialect")

/-- The known fields of a written object. The keys have to be strings; the values of other fields may be anything. -/
def knownFields? : List (List Piece × Source) → Option (List (String × Json))
  | [] => some []
  | (key, value) :: rest => do
    let key ← Source.string? key
    if isKnownField key then
      let value ← value.toJson? (Source.maxDepth - 1)
      return (key, value) :: (← knownFields? rest)
    else knownFields? rest

/-- The dialect of a JSON text. -/
def ofText (text : String) : Except ReadError Dialect :=
  let json := match Source.ofText? text with
    | none => none
    | some (.obj fields) => (knownFields? fields).map .obj
    | some source => source.toJson? Source.maxDepth
  match json with
  | none => .error .text
  | some json => ofJson json

def toJson (d : Dialect) : Json :=
  .obj [("shape", .str d.shape.name), ("count", .str d.count.name), ("like", .str d.like.name)]

end Dialect

end DocQuery
