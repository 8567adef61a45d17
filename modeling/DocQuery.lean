import DocQuery.Main
import DocQuery.Proofs.Clauses
import DocQuery.Proofs.Filter.Meaning
import DocQuery.Proofs.Demand
import DocQuery.Proofs.Grouping.Leaves
import DocQuery.Proofs.Grouping.Meaning
import DocQuery.Proofs.Attributes
import DocQuery.Proofs.BooleanMeaning
import DocQuery.Proofs.Conservation
import DocQuery.Proofs.Filter.Growth
import DocQuery.Proofs.Places
import DocQuery.Proofs.Simulation
import DocQuery.Proofs.Dialects
import DocQuery.Proofs.LostKeys.Arrays
import DocQuery.Proofs.LostKeys.Clauses
import DocQuery.Proofs.LostKeys.Trees
import DocQuery.Proofs.Shapes
import DocQuery.Proofs.Filter.Choices
import DocQuery.Proofs.EmptyArrays.Reduction
import DocQuery.Proofs.EmptyArrays.Trees
import DocQuery.Proofs.Calls
import DocQuery.Proofs.Failures
import DocQuery.Proofs.Outline.Statements
import DocQuery.Proofs.RoundTrip
import DocQuery.Proofs.Outline.Fields
import DocQuery.Proofs.IgnoredClauses
import DocQuery.Proofs.Outline.Commuting
import DocQuery.Proofs.Filter.Additions
import DocQuery.Proofs.Patterns.Strings
import DocQuery.Proofs.Patterns.Spelling
import DocQuery.Proofs.Patterns.Entries
import DocQuery.Proofs.Patterns.Literals
import DocQuery.Proofs.Patterns.Matching
import DocQuery.Proofs.Parentheses
import DocQuery.Proofs.Spellings.Clauses
import DocQuery.Proofs.Spellings.Conjunctions
import DocQuery.Proofs.Spellings.Chains
import DocQuery.Proofs.Connectives
import DocQuery.Proofs.Markers.Groups
import DocQuery.Proofs.Markers.Nesting
import DocQuery.Proofs.Markers.Operands
import DocQuery.Proofs.Markers.Trees
import DocQuery.Proofs.Merging.Paths
import DocQuery.Proofs.Merging.Splitting
import DocQuery.Proofs.LetterCase.Trees
import DocQuery.Proofs.Names
import DocQuery.Proofs.Drafts
import DocQuery.Proofs.Numbers.Intervals
import DocQuery.Proofs.Numbers.Texts
import DocQuery.Proofs.Writing.Compact
import DocQuery.Proofs.Writing.Lines
import DocQuery.Proofs.Edits
