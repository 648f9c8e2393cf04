import Equilibria.Yaml.Source

/-!
# Scalar texts

Quoted, plain and block texts in a document. Single line ends inside them become spaces, further
ones stay.
-/

namespace Equilibria.Yaml

/-- A text read from a source, with the source behind it. -/
abbrev Reading := Except Error (List Char × Source)

def isHex (c : Char) : Bool :=
  c.isDigit || ('a' ≤ c && c ≤ 'f') || ('A' ≤ c && c ≤ 'F')

def hexValue (cs : List Char) : Nat :=
  cs.foldl (fun n c =>
    let d := if c.isDigit then c.toNat - '0'.toNat else c.toLower.toNat - 'a'.toNat + 10
    16 * n + d) 0

/-- The line ends that follow each other, with the spaces between them dropped. -/
def takeBreaks (blank : Char → Bool) : Nat → Source → List Char × Source
  | 0, s => ([], s)
  | fuel + 1, s =>
    let s := s.dropWhile blank
    let (b, s') := s.takeBreak
    if b.isEmpty then ([], s)
    else
      let (more, s'') := takeBreaks blank fuel s'
      (b ++ more, s'')

/-- One line end and those after it, as text. -/
def folded (first more : List Char) : List Char :=
  if first != ['\n'] then first ++ more
  else if more.isEmpty then [' ']
  else more

/-! ## Quoted texts -/

/-- What a character after a backslash stands for. -/
def escapeOf? (c : Char) : Option Char :=
  match c with
  | '0' => some '\x00'
  | 'a' => some '\x07'
  | 'b' => some '\x08'
  | 't' | '\t' => some '\t'
  | 'n' => some '\n'
  | 'v' => some '\x0b'
  | 'f' => some '\x0c'
  | 'r' => some '\r'
  | 'e' => some '\x1b'
  | ' ' | '"' | '\\' | '/' => some c
  | 'N' => some '\u0085'
  | '_' => some '\u00a0'
  | 'L' => some '\u2028'
  | 'P' => some '\u2029'
  | _ => none

/-- How many hexadecimal digits follow a letter after a backslash. -/
def codeLength? (c : Char) : Option Nat :=
  match c with
  | 'x' => some 2
  | 'u' => some 4
  | 'U' => some 8
  | _ => none

/-- The line ends inside a quoted text. No document may end there. -/
def quotedBreaks : Nat → Source → Reading
  | 0, s => .ok ([], s)
  | fuel + 1, s =>
    if s.hasDocumentMark then .error .badToken
    else
      let s := s.dropWhile fun c => c == ' ' || c == '\t'
      let (b, s') := s.takeBreak
      if b.isEmpty then .ok ([], s)
      else do
        let (more, s'') ← quotedBreaks fuel s'
        return (b ++ more, s'')

/-- Spaces inside a quoted text, or the line ends that they lead to. -/
def quotedSpaces (s : Source) : Reading := do
  let (spaces, s) := s.takeWhile fun c => c == ' ' || c == '\t'
  if s.rest.isEmpty then throw .badToken
  let (b, s') := s.takeBreak
  if b.isEmpty then return (spaces, s)
  let (more, s'') ← quotedBreaks (s'.rest.length + 1) s'
  return (folded b more, s'')

def escaped (s : Source) : Reading := do
  let c := s.next
  if s.rest.isEmpty then throw .badToken
  else if let some d := escapeOf? c then return ([d], s.advance)
  else if let some n := codeLength? c then
    let s := s.advance
    let cs := s.rest.take n
    if cs.length == n && cs.all isHex then
      let code := hexValue cs
      if code ≤ 0x10ffff then return ([Char.ofNat code], s.skip n) else throw .unlikeShapes
    else throw .badToken
  else if Source.isBreak c then
    let (_, s) := s.takeBreak
    quotedBreaks (s.rest.length + 1) s
  else throw .badToken

/-- The rest of a quoted text up to its closing quote. -/
def quotedText (double : Bool) : Nat → Source → Reading
  | 0, _ => .error .badToken
  | fuel + 1, s => do
    let quote := if double then '"' else '\''
    if s.rest.isEmpty then throw .badToken
    let c := s.next
    let (part, s) ←
      if c == quote then
        if !double && s.peek 1 == '\'' then pure (['\''], s.skip 2) else return ([], s.advance)
      else if double && c == '\\' then escaped s.advance
      else if c == ' ' || c == '\t' || Source.isBreak c then quotedSpaces s
      else pure ([c], s.advance)
    let (more, s) ← quotedText double fuel s
    return (part ++ more, s)

/-! ## Plain texts -/

def plainLength (inFlow : Bool) : List Char → Nat
  | [] => 0
  | c :: r =>
    let next := r.headD '\x00'
    if Source.isBlankEnd c then 0
    else if c == ':' && Source.isBlankEnd next then 0
    else if c == ':' && inFlow && ",[]\x7b\x7d".toList.contains next then 0
    else if inFlow && ",?[]\x7b\x7d".toList.contains c then 0
    else plainLength inFlow r + 1

/-- The line ends between plain runs. There are none if a document mark follows. -/
def plainBreaks : Nat → Source → Option (List Char) × Source
  | 0, s => (some [], s)
  | fuel + 1, s =>
    let s := s.dropSpaces
    let (b, s') := s.takeBreak
    if b.isEmpty then (some [], s)
    else if s'.hasDocumentMark then (none, s')
    else
      let (more, s'') := plainBreaks fuel s'
      (more.map (b ++ ·), s'')

/-- What stands between two plain runs, and whether it holds a line end. It is empty where the
text ends. -/
def plainSpaces (s : Source) : List Char × Bool × Source :=
  let (spaces, s) := s.takeWhile (· == ' ')
  let (b, s') := s.takeBreak
  if b.isEmpty then (spaces, false, s)
  else if s'.hasDocumentMark then ([], true, s')
  else
    match plainBreaks (s'.rest.length + 1) s' with
    | (some more, s'') => (folded b more, true, s'')
    | (none, s'') => ([], true, s'')

/-- A plain text, and whether a line ended behind its last run. -/
def plainText (inFlow : Bool) (indent : Int) :
    Nat → List Char → Bool → Source → List Char × Bool × Source
  | 0, _, newLine, s => ([], newLine, s)
  | fuel + 1, before, newLine, s =>
    let n := if s.next == '#' then 0 else plainLength inFlow s.rest
    if n == 0 then ([], newLine, s)
    else
      let run := before ++ s.rest.take n
      let (spaces, newLine, s) := plainSpaces (s.skip n)
      if spaces.isEmpty || s.next == '#' || (!inFlow && decide ((s.column : Int) < indent)) then
        (run, newLine, s)
      else
        let (more, newLine, s) := plainText inFlow indent fuel spaces newLine s
        (run ++ more, newLine, s)

/-! ## Block texts -/

inductive Chomping where
  | strip
  | clip
  | keep
deriving DecidableEq

def chompingOf? (c : Char) : Option Chomping :=
  if c == '+' then some .keep else if c == '-' then some .strip else none

/-- The marks behind the sign of a block: how it ends and how far it is indented. -/
def blockHeader (s : Source) : Except Error (Chomping × Option Nat × Source) := do
  let takeDigit (s : Source) : Except Error (Option Nat × Source) :=
    let c := s.next
    if c == '0' then throw .badToken
    else if c.isDigit then return (some (c.toNat - '0'.toNat), s.advance)
    else return (none, s)
  let (chomping, indent, s) ← match chompingOf? s.next with
    | some chomping => do
      let (indent, s) ← takeDigit s.advance
      pure (chomping, indent, s)
    | none => do
      let (indent, s) ← takeDigit s
      match indent, chompingOf? s.next with
      | some _, some chomping => pure (chomping, indent, s.advance)
      | _, _ => pure (Chomping.clip, indent, s)
  if !Source.isSpaceEnd s.next then throw .badToken
  let s := s.dropSpaces
  let s := if s.next == '#' then s.takeLine.2 else s
  if !Source.isEnd s.next then throw .badToken
  return (chomping, indent, s.takeBreak.2)

/-- The empty lines in front of a block, and the widest indent in them. -/
def blockIndent : Nat → Nat → Source → List Char × Nat × Source
  | 0, widest, s => ([], widest, s)
  | fuel + 1, widest, s =>
    let s := s.dropSpaces
    let widest := max widest s.column
    let (b, s') := s.takeBreak
    if b.isEmpty then ([], widest, s)
    else
      let (more, widest, s) := blockIndent fuel widest s'
      (b ++ more, widest, s)

/-- Moves over at most the spaces of an indent. -/
def dropIndent (indent : Nat) (s : Source) : Source :=
  s.skip ((s.rest.take (indent - s.column)).takeWhile (· == ' ')).length

/-- The empty lines between the lines of a block. -/
def blockBreaks (indent : Nat) : Nat → Source → List Char × Source
  | 0, s => ([], s)
  | fuel + 1, s =>
    let s := dropIndent indent s
    let (b, s') := s.takeBreak
    if b.isEmpty then ([], s)
    else
      let (more, s) := blockBreaks indent fuel s'
      (b ++ more, s)

/-- The lines of a block, with the line end of the last one and the empty lines behind it. -/
def blockLines (fold : Bool) (indent : Nat) :
    Nat → List Char → Source → List Char × List Char × List Char × Source
  | 0, breaks, s => ([], [], breaks, s)
  | fuel + 1, breaks, s =>
    if s.column != indent || s.rest.isEmpty then ([], [], breaks, s)
    else
      let (line, s') := s.takeLine
      let isText (c : Char) : Bool := c != ' ' && c != '\t'
      let (b, s') := s'.takeBreak
      let (more, s') := blockBreaks indent (s'.rest.length + 1) s'
      if s'.column == indent && !s'.rest.isEmpty then
        let joint :=
          if fold && b == ['\n'] && isText s.next && isText s'.next then
            if more.isEmpty then [' '] else []
          else b
        let (rest, last, ending, s'') := blockLines fold indent fuel more s'
        (breaks ++ line ++ joint ++ rest, last, ending, s'')
      else (breaks ++ line, b, more, s')

/-- A block text behind its sign. `outer` is the indent of what holds it. -/
def blockText (fold : Bool) (outer : Int) (s : Source) : Reading := do
  let (chomping, increment, s) ← blockHeader s
  let least := (max (outer + 1) 1).toNat
  let fuel := s.rest.length + 1
  let (indent, breaks, s) := match increment with
    | none =>
      let (breaks, widest, s) := blockIndent fuel 0 s
      (max least widest, breaks, s)
    | some n =>
      let (breaks, s) := blockBreaks (least + n - 1) fuel s
      (least + n - 1, breaks, s)
  let (text, last, ending, s) := blockLines fold indent fuel breaks s
  return match chomping with
    | .strip => (text, s)
    | .clip => (text ++ last, s)
    | .keep => (text ++ last ++ ending, s)

end Equilibria.Yaml
