import GradientFallback.Text.Unprinted

/-! # Quoted text for readers

A quoted text stands between double quotes.  Quotes and backslashes in it, the usual control
characters and every character that would not show are written as escapes.
-/
namespace GradientFallback
namespace Quoted

/-- The code point in hexadecimal, in braces. -/
def escapeCode (c : Char) : List Char :=
  ['\\', 'u', '\x7b'] ++ Nat.toDigits 16 c.toNat ++ ['\x7d']

def escape (c : Char) : List Char :=
  if c = '\x00' then ['\\', '0']
  else if c = '\t' then ['\\', 't']
  else if c = '\n' then ['\\', 'n']
  else if c = '\r' then ['\\', 'r']
  else if c = '"' then ['\\', '"']
  else if c = '\\' then ['\\', '\\']
  else if 0x20 ≤ c.toNat ∧ c.toNat < 0x7f then [c]
  else if isInvisible c then escapeCode c
  else [c]

end Quoted

def quoted (s : String) : String :=
  String.ofList (['"'] ++ s.toList.flatMap Quoted.escape ++ ['"'])

end GradientFallback
