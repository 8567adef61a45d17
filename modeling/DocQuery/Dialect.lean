/-!
# Dialects

A dialect fixes the spelling of the output: the shape of the document, how rows are counted, and how a pattern is
written. It is chosen once for a whole query.
-/

namespace DocQuery

/-- The two documents that a query can be written as. -/
inductive OutputShape where
  | wire
  | criteria
deriving DecidableEq, Repr

/-- Counting groups of rows in a pipeline, or rows in which the counted attributes exist. -/
inductive CountStyle where
  | pipeline
  | existence
deriving DecidableEq, Repr

/-- A pattern as an operator, or as a literal of the extended notation. -/
inductive LikeStyle where
  | regex
  | literal
deriving DecidableEq, Repr

structure Dialect where
  shape : OutputShape := .wire
  count : CountStyle := .pipeline
  like : LikeStyle := .regex
deriving DecidableEq, Repr, Inhabited

def OutputShape.name : OutputShape → String
  | .wire => "wire"
  | .criteria => "criteria"

def CountStyle.name : CountStyle → String
  | .pipeline => "pipeline"
  | .existence => "exists"

def LikeStyle.name : LikeStyle → String
  | .regex => "regex"
  | .literal => "literal"

end DocQuery
