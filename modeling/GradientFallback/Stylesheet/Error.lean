import GradientFallback.Text.Problem

/-! # What can be wrong with a stylesheet -/
namespace GradientFallback

/-- What ends a declaration. -/
inductive DeclarationEnd where
  | semicolon
  | rightBrace
  | endOfText
  deriving DecidableEq

def DeclarationEnd.name : DeclarationEnd → String
  | semicolon => "Semicolon"
  | rightBrace => "RCurly"
  | endOfText => "Eof"

inductive ParseFault where
  /-- The text ends inside a block. -/
  | unclosedBlock
  /-- A closing brace stands outside all blocks. -/
  | unexpectedBrace
  /-- Something that is no rule, at-rule or comment stands outside all blocks. -/
  | declarationOutsideRule
  /-- A declaration ends before a colon. -/
  | missingColon (found : DeclarationEnd)
  /-- Nothing but trivia stands in front of the colon. -/
  | missingProperty
  /-- Nothing but trivia stands behind the colon. -/
  | missingValue
  deriving DecidableEq

def ParseFault.message : ParseFault → String
  | unclosedBlock => "Unclosed block"
  | unexpectedBrace => "Unexpected \x7d"
  | declarationOutsideRule => "Unexpected declaration outside of a rule"
  | missingColon found => "Expected Colon, got " ++ found.name
  | missingProperty => "Expected property name"
  | missingValue => "Expected value in declaration"

structure ParseError where
  fault : ParseFault
  location : Location
  deriving DecidableEq

def ParseError.problem (e : ParseError) : Problem := ⟨e.fault.message, some e.location⟩

end GradientFallback
