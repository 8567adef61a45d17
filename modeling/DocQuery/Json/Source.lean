import DocQuery.Json.Basic

/-!
# Written JSON

`Source` is a JSON text after its grammar has been checked and before anything in it is interpreted: numbers are
decimals, strings are characters and escaped code units, and an object lists its fields as they are written, a key
perhaps more than once. `Source.ofText?` reads it in two passes, each a run over a list: characters to lexemes, and
lexemes to a value with the open containers on a stack.

`Source.toJson?` interprets it. It refuses numbers beyond the range of doubles, escapes that are half of a pair, and
more than `Source.maxDepth` containers inside each other.
-/

namespace DocQuery

/-- A part of a string literal: a character, or a sixteen-bit code unit from an escape. -/
inductive Piece where
  | char (c : Char)
  | unit (code : Nat)
deriving Repr

inductive Source where
  | null
  | bool (b : Bool)
  | num (d : Decimal)
  | str (pieces : List Piece)
  | arr (items : List Source)
  | obj (fields : List (List Piece × Source))
deriving Repr, Inhabited

namespace Source

/-! ## Lexemes -/

inductive Lexeme where
  | openArray
  | closeArray
  | openObject
  | closeObject
  | comma
  | colon
  | text (pieces : List Piece)
  | scalar (s : Source)
deriving Repr

/-- A run of characters without blanks and marks: a number or one of three words. -/
def word? (cs : List Char) : Option Source :=
  if cs = "null".toList then some .null
  else if cs = "true".toList then some (.bool true)
  else if cs = "false".toList then some (.bool false)
  else (Decimal.ofChars? cs).map .num

/-- Where the scanner stands. What it has collected is in reverse. -/
inductive Scan where
  | between
  | word (read : List Char)
  | text (read : List Piece)
  | escape (read : List Piece)
  | hex (read : List Piece) (missing : Nat) (code : Nat)

def isBlank (c : Char) : Bool := c = ' ' || c = '\t' || c = '\n' || c = '\r'

/-- The lexeme of a character that is one by itself. -/
def mark? (c : Char) : Option Lexeme :=
  if c = '[' then some .openArray
  else if c = ']' then some .closeArray
  else if c = '\x7b' then some .openObject
  else if c = '\x7d' then some .closeObject
  else if c = ',' then some .comma
  else if c = ':' then some .colon
  else none

/-- The character that a one-letter escape stands for. -/
def escaped? (c : Char) : Option Char :=
  if c = '"' ∨ c = '\\' ∨ c = '/' then some c
  else if c = 'b' then some '\x08'
  else if c = 'f' then some '\x0c'
  else if c = 'n' then some '\n'
  else if c = 'r' then some '\r'
  else if c = 't' then some '\t'
  else none

def hexValue? (c : Char) : Option Nat :=
  if c.isDigit then some (c.toNat - '0'.toNat)
  else if 'a' ≤ c ∧ c ≤ 'f' then some (c.toNat - 'a'.toNat + 10)
  else if 'A' ≤ c ∧ c ≤ 'F' then some (c.toNat - 'A'.toNat + 10)
  else none

/-- One character read between two lexemes. -/
def startLexeme (c : Char) : Scan × List Lexeme :=
  if isBlank c then (.between, [])
  else if c = '"' then (.text [], [])
  else match mark? c with
    | some lexeme => (.between, [lexeme])
    | none => (.word [c], [])

/-- One character read: the new place of the scanner, and the lexemes that this character completes. -/
def Scan.step : Scan → Char → Option (Scan × List Lexeme)
  | .between, c => some (startLexeme c)
  | .word read, c =>
    if isBlank c ∨ c = '"' ∨ (mark? c).isSome then do
      let scalar ← word? read.reverse
      let (scan, lexemes) := startLexeme c
      return (scan, .scalar scalar :: lexemes)
    else some (.word (c :: read), [])
  | .text read, c =>
    if c = '"' then some (.between, [.text read.reverse])
    else if c = '\\' then some (.escape read, [])
    else if c < ' ' then none
    else some (.text (.char c :: read), [])
  | .escape read, c =>
    if c = 'u' then some (.hex read 4 0, [])
    else (escaped? c).map fun e => (.text (.char e :: read), [])
  | .hex read missing code, c => do
    let digit ← hexValue? c
    let code := 16 * code + digit
    return (if missing ≤ 1 then .text (.unit code :: read) else .hex read (missing - 1) code, [])

/-- The lexeme that the end of the text completes, if it does. -/
def Scan.finish : Scan → Option (List Lexeme)
  | .between => some []
  | .word read => (word? read.reverse).map ([.scalar ·])
  | _ => none

/-- One character read, after lexemes that are in reverse. -/
def scanChar : Scan × List Lexeme → Char → Option (Scan × List Lexeme)
  | (scan, read), c => (scan.step c).map fun (scan, lexemes) => (scan, lexemes.reverse ++ read)

/-- The lexemes of a text. -/
def lexemes? (cs : List Char) : Option (List Lexeme) := do
  let (scan, read) ← cs.foldlM scanChar (.between, [])
  return read.reverse ++ (← scan.finish)

/-! ## Grammar -/

/-- An open container. What it holds so far is in reverse; in an object the value of `key` is being read. -/
inductive Frame where
  | items (read : List Source)
  | fields (read : List (List Piece × Source)) (key : List Piece)

/-- What may come next, with the open containers from the inside out. -/
inductive Progress where
  | value (stack : List Frame)
  | firstItem (stack : List Frame)
  | firstKey (stack : List Frame)
  | nextKey (read : List (List Piece × Source)) (stack : List Frame)
  | colon (read : List (List Piece × Source)) (key : List Piece) (stack : List Frame)
  | afterItem (read : List Source) (stack : List Frame)
  | afterField (read : List (List Piece × Source)) (stack : List Frame)
  | whole (s : Source)

namespace Progress

/-- A complete value goes into the innermost open container. -/
def plug (s : Source) : List Frame → Progress
  | [] => .whole s
  | .items read :: stack => .afterItem (s :: read) stack
  | .fields read key :: stack => .afterField ((key, s) :: read) stack

/-- The first lexeme of a value. -/
def start (stack : List Frame) : Lexeme → Option Progress
  | .scalar s => some (plug s stack)
  | .text pieces => some (plug (.str pieces) stack)
  | .openArray => some (.firstItem stack)
  | .openObject => some (.firstKey stack)
  | _ => none

def step : Progress → Lexeme → Option Progress
  | .value stack, lexeme => start stack lexeme
  | .firstItem stack, .closeArray => some (plug (.arr []) stack)
  | .firstItem stack, lexeme => start (.items [] :: stack) lexeme
  | .firstKey stack, .closeObject => some (plug (.obj []) stack)
  | .firstKey stack, .text key => some (.colon [] key stack)
  | .nextKey read stack, .text key => some (.colon read key stack)
  | .colon read key stack, .colon => some (.value (.fields read key :: stack))
  | .afterItem read stack, .comma => some (.value (.items read :: stack))
  | .afterItem read stack, .closeArray => some (plug (.arr read.reverse) stack)
  | .afterField read stack, .comma => some (.nextKey read stack)
  | .afterField read stack, .closeObject => some (plug (.obj read.reverse) stack)
  | _, _ => none

end Progress

/-- The value that a text holds, with blanks around it and nothing else. -/
def ofText? (text : String) : Option Source := do
  let lexemes ← lexemes? text.toList
  match ← lexemes.foldlM Progress.step (.value []) with
  | .whole s => some s
  | _ => none

/-! ## Interpretation -/

def isHighHalf (code : Nat) : Bool := 0xd800 ≤ code && code < 0xdc00

def isLowHalf (code : Nat) : Bool := 0xdc00 ≤ code && code < 0xe000

/-- The characters of a string literal. A high half pairs with the low half right after it; no half stands alone. -/
def decode? : List Piece → Option (List Char)
  | [] => some []
  | .char c :: rest => (decode? rest).map (c :: ·)
  | .unit high :: .unit low :: rest =>
    if isHighHalf high then
      if isLowHalf low then
        (decode? rest).map (Char.ofNat (0x10000 + (high - 0xd800) * 0x400 + (low - 0xdc00)) :: ·)
      else none
    else if isLowHalf high then none
    else (decode? (.unit low :: rest)).map (Char.ofNat high :: ·)
  | .unit code :: rest =>
    if isHighHalf code || isLowHalf code then none else (decode? rest).map (Char.ofNat code :: ·)

def string? (pieces : List Piece) : Option String := (decode? pieces).map String.ofList

/-- So many containers may stand inside each other. -/
def maxDepth : Nat := 127

mutual

/-- The value of a source inside which `room` more containers may be nested. Repeated keys are kept. -/
def toJson? (room : Nat) : Source → Option Json
  | .null => some .null
  | .bool b => some (.bool b)
  | .num d => d.toNumber?.map .num
  | .str pieces => (string? pieces).map .str
  | .arr items => if room = 0 then none else (itemsToJson? (room - 1) items).map .arr
  | .obj fields => if room = 0 then none else (fieldsToJson? (room - 1) fields).map .obj

def itemsToJson? (room : Nat) : List Source → Option (List Json)
  | [] => some []
  | item :: rest => do return (← item.toJson? room) :: (← itemsToJson? room rest)

def fieldsToJson? (room : Nat) : List (List Piece × Source) → Option (List (String × Json))
  | [] => some []
  | (key, value) :: rest => do return (← string? key, ← value.toJson? room) :: (← fieldsToJson? room rest)

end

end Source

/-- The value of a JSON text, each key of an object once. -/
def Json.ofText? (text : String) : Option Json := do
  let source ← Source.ofText? text
  let json ← source.toJson? Source.maxDepth
  return json.collapse

end DocQuery
