import Equilibria.Error

/-!
# Document text

The characters of a document with the place of the next one, and the moves over them. Past the
end stands a null character.
-/

namespace Equilibria.Yaml

/-- What is left of a text, and how many characters and lines lie before it. -/
structure Source where
  rest : List Char
  index : Nat
  line : Nat
  column : Nat

namespace Source

/-- Line ends are one character, however the text was written. -/
def unifyLines : List Char → List Char
  | '\r' :: '\n' :: r => '\n' :: unifyLines r
  | '\r' :: r => '\n' :: unifyLines r
  | c :: r => c :: unifyLines r
  | [] => []

def isAllowed (c : Char) : Bool :=
  let n := c.toNat
  n == 0x09 || n == 0x0a || n == 0x0d || (0x20 ≤ n && n ≤ 0x7e) || n == 0x85 ||
    (0xa0 ≤ n && n ≤ 0xd7ff) || (0xe000 ≤ n && n ≤ 0xfffd) || 0x10000 ≤ n

/-- A byte order mark in front is left out. -/
def dropMark : List Char → List Char
  | '\ufeff' :: r => r
  | cs => cs

def ofText (s : String) : Except Error Source :=
  let cs := unifyLines s.toList
  if cs.all isAllowed then .ok ⟨dropMark cs, 0, 0, 0⟩ else .error .badCharacter

def peek (s : Source) (n : Nat) : Char := s.rest.getD n '\x00'

def next (s : Source) : Char := s.peek 0

def isBreak (c : Char) : Bool :=
  c == '\r' || c == '\n' || c == '\u0085' || c == '\u2028' || c == '\u2029'

/-- Line ends and the end of the text. -/
def isEnd (c : Char) : Bool := c == '\x00' || isBreak c

/-- Spaces, line ends and the end of the text. -/
def isSpaceEnd (c : Char) : Bool := c == ' ' || isEnd c

/-- Spaces, tabs, line ends and the end of the text. -/
def isBlankEnd (c : Char) : Bool := c == '\t' || isSpaceEnd c

def advance (s : Source) : Source :=
  match s.rest with
  | [] => s
  | c :: r =>
    if isBreak c then ⟨r, s.index + 1, s.line + 1, 0⟩
    else ⟨r, s.index + 1, s.line, if c == '\ufeff' then s.column else s.column + 1⟩

def skip (s : Source) : Nat → Source
  | 0 => s
  | n + 1 => s.advance.skip n

/-- The characters in front that meet a test, and the source behind them. -/
def takeWhile (s : Source) (p : Char → Bool) : List Char × Source :=
  let cs := s.rest.takeWhile p
  (cs, s.skip cs.length)

def dropWhile (s : Source) (p : Char → Bool) : Source := (s.takeWhile p).2

def dropSpaces (s : Source) : Source := s.dropWhile (· == ' ')

def takeLine (s : Source) : List Char × Source := s.takeWhile fun c => !isEnd c

/-- A line end in front: how it counts in text, and the source behind it. -/
def takeBreak (s : Source) : List Char × Source :=
  match s.rest with
  | c :: _ =>
    if c == '\u2028' || c == '\u2029' then ([c], s.advance)
    else if isBreak c then (['\n'], s.advance)
    else ([], s)
  | [] => ([], s)

/-- Whether a mark of three characters stands in front, with nothing right behind it. -/
def hasMark (s : Source) (mark : List Char) : Bool :=
  s.rest.take 3 == mark && isBlankEnd (s.peek 3)

def hasDocumentMark (s : Source) : Bool :=
  s.hasMark ['-', '-', '-'] || s.hasMark ['.', '.', '.']

end Source

end Equilibria.Yaml
