import GradientFallback.Token.Lexer

/-! # Reading tokens on demand

A reader reads a token from its text only when it is asked for it, and keeps the tokens that have
been looked at but not consumed.  It can look any number of tokens ahead; behind the end of the
text there are only tokens for the end.
-/
namespace GradientFallback

structure TokenReader where
  /-- The place where the text starts. -/
  start : Location
  /-- The whole text. -/
  text : List Char
  /-- The part of the text that no token has been read from. -/
  unread : List Char
  /-- The place of the first unread character, counted in the text alone. -/
  here : Location
  /-- The tokens read so far and not consumed. -/
  ahead : List Token

namespace TokenReader

def ofSource (start : Location) (s : Source) : TokenReader := ⟨start, s.chars, s.rest, .origin, []⟩

/-- The place of the first unread character. -/
def place (r : TokenReader) : Location := r.start.within r.here

/-- Reads one token from the text; at its end the one for the end, again and again. -/
def fetch (r : TokenReader) : Token × TokenReader :=
  match Scan.token r.unread with
  | some (kind, width) =>
    let text := r.unread.take width
    let here := r.here.advance text
    (⟨kind, r.place, text⟩, { r with unread := r.unread.drop width, here := here })
  | none => (Token.atEnd r.place, r)

/-- Reads `n` more tokens and keeps them. -/
def fill : Nat → TokenReader → TokenReader
  | 0, r => r
  | n + 1, r =>
    let (t, r) := r.fetch
    fill n { r with ahead := r.ahead ++ [t] }

/-- Sees to it that at least `n` tokens are kept. -/
def require (n : Nat) (r : TokenReader) : TokenReader := fill (n - r.ahead.length) r

/-- The token `n` places ahead. -/
def look (n : Nat) (r : TokenReader) : Token × TokenReader :=
  let r := r.require (n + 1)
  (r.ahead[n]?.getD (Token.atEnd r.place), r)

/-- Looks from `n` places ahead on for a token that is no trivia, at most `tries` times. -/
def lookPastTrivia : Nat → Nat → TokenReader → (Nat × Token) × TokenReader
  | 0, n, r =>
    let (t, r) := r.look n
    ((n, t), r)
  | tries + 1, n, r =>
    let (t, r) := r.look n
    if t.isTrivia then lookPastTrivia tries (n + 1) r else ((n, t), r)

/-- The first token from `n` places ahead on that is no trivia, and its place ahead.  There are at
most as many tokens to pass as are kept or have characters left to be read from. -/
def lookSignificant (n : Nat) (r : TokenReader) : (Nat × Token) × TokenReader :=
  lookPastTrivia (r.ahead.length + r.unread.length) n r

/-- The next token, which is passed. -/
def consume (r : TokenReader) : Token × TokenReader :=
  let (t, r) := r.look 0
  (t, { r with ahead := r.ahead.tail })

/-- The place of the next token. -/
def location (r : TokenReader) : Location × TokenReader :=
  let (t, r) := r.look 0
  (t.location, r)

/-- The number of characters between the start of the text and the token `n` places ahead. -/
def offsetOf (n : Nat) (r : TokenReader) : Nat × TokenReader :=
  let (t, r) := r.look n
  (t.location.offset - r.start.offset, r)

/-- The characters of the text from one position up to another. -/
def slice (first last : Nat) (r : TokenReader) : List Char := cut r.text first last

end TokenReader
end GradientFallback
