import Equilibria.Yaml.Scalar

/-!
# Tokens

The tokens of a document and how they are found. A key is only known to be one when its colon
is met, so tokens wait as long as one of them may still be a key.
-/

namespace Equilibria.Yaml

inductive Token where
  | versionDirective (major minor : Nat)
  | tagDirective (handle tagPrefix : String)
  | otherDirective
  | documentStart
  | documentEnd
  | streamEnd
  | blockSequence
  | blockMapping
  | blockEnd
  | flowSequence
  | flowMapping
  | flowSequenceEnd
  | flowMappingEnd
  | flowEntry
  | blockEntry
  | key
  | value
  | alias (name : String)
  | anchor (name : String)
  | tag (handle : Option String) (suffix : String)
  | scalar (text : String) (plain : Bool)
deriving DecidableEq, Repr

structure KeyPlace where
  /-- How many tokens come before it. -/
  number : Nat
  required : Bool
  index : Nat
  line : Nat
  column : Nat

structure Scanner where
  source : Source
  done : Bool
  /-- How many flow collections are open. -/
  flow : Int
  tokens : List Token
  /-- How many tokens have been taken. -/
  taken : Nat
  indent : Int
  indents : List Int
  keyAllowed : Bool
  /-- The place of a possible key at each flow depth. -/
  keys : List (Int × KeyPlace)

abbrev Scan (β : Type) := StateT Scanner (Except Error) β

namespace Scanner

def ofSource (s : Source) : Scanner where
  source := s
  done := false
  flow := 0
  tokens := []
  taken := 0
  indent := -1
  indents := []
  keyAllowed := true
  keys := []

def inFlow (s : Scanner) : Bool := s.flow != 0

end Scanner

namespace Scan

def push (t : Token) : Scan Unit := modify fun s => { s with tokens := s.tokens ++ [t] }

def setSource (source : Source) : Scan Unit := modify fun s => { s with source := source }

def allowKey (b : Bool) : Scan Unit := modify fun s => { s with keyAllowed := b }

def forward (n : Nat) : Scan Unit := modify fun s => { s with source := s.source.skip n }

/-! ## Possible keys -/

/-- Drops the places whose line is over or that are too far back. A required key cannot be
dropped. -/
def dropStaleKeys : Scan Unit := do
  let s ← get
  let stale (k : KeyPlace) : Bool :=
    k.line != s.source.line || decide (1024 < s.source.index - k.index)
  if s.keys.any fun p => stale p.2 && p.2.required then throw .badToken
  set { s with keys := s.keys.filter fun p => !stale p.2 }

def dropKey : Scan Unit := do
  let s ← get
  match s.keys.find? (·.1 == s.flow) with
  | some (_, k) =>
    if k.required then throw .badToken
    set { s with keys := s.keys.filter (·.1 != s.flow) }
  | none => return

def saveKey : Scan Unit := do
  let s ← get
  if s.keyAllowed then
    dropKey
    let place : KeyPlace := {
      number := s.taken + s.tokens.length
      required := !s.inFlow && s.indent == s.source.column
      index := s.source.index
      line := s.source.line
      column := s.source.column }
    modify fun s => { s with keys := s.keys ++ [(s.flow, place)] }

/-! ## Indents -/

/-- Closes the block collections that are indented further than `column`. -/
def closeBlocks (column : Int) : Scan Unit := do
  let s ← get
  if !s.inFlow then
    let deeper := (s.indent :: s.indents).takeWhile fun i => decide (column < i)
    let rest := (s.indent :: s.indents).drop deeper.length
    set { s with
      indent := rest.headD (-1)
      indents := rest.tail
      tokens := s.tokens ++ deeper.map fun _ => Token.blockEnd }

/-- Opens an indent, if `column` is one. -/
def openIndent (column : Int) : Scan Bool := do
  let s ← get
  if s.indent < column then
    set { s with indents := s.indent :: s.indents, indent := column }
    return true
  else return false

/-! ## Finding tokens -/

/-- Moves over spaces, comments and line ends. A new line allows a key outside of flow
collections. -/
def toNextToken : Nat → Scan Unit
  | 0 => return
  | fuel + 1 => do
    let s ← get
    let source := s.source.dropSpaces
    let source := if source.next == '#' then source.takeLine.2 else source
    let (b, after) := source.takeBreak
    if b.isEmpty then setSource source
    else
      setSource after
      if !s.inFlow then allowKey true
      toNextToken fuel

def isNameChar (c : Char) : Bool := c.isAlphanum || c == '-' || c == '_'

def isUriChar (c : Char) : Bool := c.isAlphanum || "-;/?:@&=+$,_.!~*'()[]%".toList.contains c

def fail {β : Type} : Scan β := throw .badToken

def next : Scan Char := return (← get).source.next

def takeWhile (p : Char → Bool) : Scan (List Char) := do
  let (cs, source) := (← get).source.takeWhile p
  setSource source
  return cs

def expect (p : Char → Bool) : Scan Unit := do
  if !p (← next) then fail

/-- Characters of a tag, with the bytes written as a percent sign and two digits. -/
def uriBytes : Nat → Scan (List UInt8)
  | 0 => return []
  | fuel + 1 => do
    let c ← next
    if c == '%' then
      let cs := ((← get).source.rest.drop 1).take 2
      if cs.length == 2 && cs.all isHex then
        forward 3
        return (hexValue cs).toUInt8 :: (← uriBytes fuel)
      else fail
    else if isUriChar c then
      forward 1
      return c.toString.toUTF8.toList ++ (← uriBytes fuel)
    else return []

def uri : Scan String := do
  let bytes ← uriBytes ((← get).source.rest.length + 1)
  if bytes.isEmpty then fail
  match String.fromUTF8? ⟨bytes.toArray⟩ with
  | some s => return s
  | none => fail

/-- A handle between exclamation marks, or a single one. -/
def tagHandle : Scan String := do
  expect (· == '!')
  let source := (← get).source
  if source.peek 1 == ' ' then
    forward 1
    return "!"
  let cs := (source.rest.drop 1).takeWhile isNameChar
  if source.peek (cs.length + 1) == '!' then
    forward (cs.length + 2)
    return String.ofList ('!' :: cs ++ ['!'])
  else fail

def number : Scan Nat := do
  let cs ← takeWhile Char.isDigit
  if cs.isEmpty then fail
  return cs.foldl (fun n c => 10 * n + (c.toNat - '0'.toNat)) 0

def spaces : Scan Unit := do let _ ← takeWhile (· == ' ')

def directive : Scan Token := do
  forward 1
  let name ← takeWhile isNameChar
  if name.isEmpty then fail
  expect Source.isSpaceEnd
  let token ← match String.ofList name with
    | "YAML" => do
      spaces
      let major ← number
      expect (· == '.')
      forward 1
      let minor ← number
      expect Source.isSpaceEnd
      pure (Token.versionDirective major minor)
    | "TAG" => do
      spaces
      let handle ← tagHandle
      expect (· == ' ')
      spaces
      let tagPrefix ← uri
      expect Source.isSpaceEnd
      pure (Token.tagDirective handle tagPrefix)
    | _ => do
      let _ ← takeWhile fun c => !Source.isEnd c
      pure Token.otherDirective
  spaces
  if (← next) == '#' then let _ ← takeWhile fun c => !Source.isEnd c
  expect Source.isEnd
  modify fun s => { s with source := s.source.takeBreak.2 }
  return token

def name : Scan String := do
  forward 1
  let cs ← takeWhile isNameChar
  if cs.isEmpty then fail
  expect fun c => Source.isBlankEnd c || "?:,]\x7d%@".toList.contains c || c == '\x60'
  return String.ofList cs

def tag : Scan Token := do
  let source := (← get).source
  let c := source.peek 1
  let token ←
    if c == '<' then do
      forward 2
      let suffix ← uri
      expect (· == '>')
      forward 1
      pure (Token.tag none suffix)
    else if Source.isBlankEnd c then do
      forward 1
      pure (Token.tag none "!")
    else do
      let word := (source.rest.drop 1).takeWhile fun c => !Source.isSpaceEnd c
      let handle ← if word.contains '!' then tagHandle else do
        forward 1
        pure "!"
      pure (Token.tag (some handle) (← uri))
  expect Source.isSpaceEnd
  return token

def reading (f : Source → Reading) : Scan String := do
  let (cs, source) ← f (← get).source
  setSource source
  return String.ofList cs

/-! ## The kinds of tokens -/

def fetchEnd : Scan Unit := do
  closeBlocks (-1)
  dropKey
  modify fun s => { s with keyAllowed := false, keys := [], done := true }
  push .streamEnd

def fetchDirective : Scan Unit := do
  closeBlocks (-1)
  dropKey
  allowKey false
  push (← directive)

def fetchDocumentMark (t : Token) : Scan Unit := do
  closeBlocks (-1)
  dropKey
  allowKey false
  forward 3
  push t

def fetchFlowStart (t : Token) : Scan Unit := do
  saveKey
  modify fun s => { s with flow := s.flow + 1, keyAllowed := true }
  forward 1
  push t

def fetchFlowEnd (t : Token) : Scan Unit := do
  dropKey
  modify fun s => { s with flow := s.flow - 1, keyAllowed := false }
  forward 1
  push t

def fetchFlowEntry : Scan Unit := do
  allowKey true
  dropKey
  forward 1
  push .flowEntry

/-- Starts a block collection at this column if none is open there. -/
def startBlock (t : Token) : Scan Unit := do
  let s ← get
  if !s.inFlow then
    if !s.keyAllowed then fail
    if ← openIndent s.source.column then push t

def fetchBlockEntry : Scan Unit := do
  startBlock .blockSequence
  allowKey true
  dropKey
  forward 1
  push .blockEntry

def fetchKey : Scan Unit := do
  startBlock .blockMapping
  let s ← get
  allowKey (!s.inFlow)
  dropKey
  forward 1
  push .key

def insertAt (tokens : List Token) (i : Nat) (t : Token) : List Token :=
  tokens.take i ++ t :: tokens.drop i

def fetchValue : Scan Unit := do
  let s ← get
  match s.keys.find? (·.1 == s.flow) with
  | some (_, k) =>
    let i := k.number - s.taken
    set { s with
      keys := s.keys.filter (·.1 != s.flow)
      tokens := insertAt s.tokens i .key }
    if !s.inFlow then
      if ← openIndent k.column then
        modify fun s => { s with tokens := insertAt s.tokens i .blockMapping }
    allowKey false
  | none =>
    startBlock .blockMapping
    let s ← get
    allowKey (!s.inFlow)
    dropKey
  forward 1
  push .value

def fetchNode (token : Scan Token) : Scan Unit := do
  saveKey
  allowKey false
  push (← token)

def fetchBlockScalar (fold : Bool) : Scan Unit := do
  allowKey true
  dropKey
  let indent := (← get).indent
  push (.scalar (← reading fun s => blockText fold indent s.advance) false)

def fetchQuoted (double : Bool) : Scan Unit := fetchNode do
  return .scalar (← reading fun s => quotedText double (s.rest.length + 1) s.advance) false

def fetchPlain : Scan Unit := do
  saveKey
  allowKey false
  let s ← get
  let fuel := s.source.rest.length + 1
  let (cs, newLine, source) := plainText s.inFlow (s.indent + 1) fuel [] false s.source
  setSource source
  if newLine then allowKey true
  push (.scalar (String.ofList cs) true)

def startsPlain (inFlow : Bool) (source : Source) : Bool :=
  let c := source.next
  let isMark := "-?:,[]\x7b\x7d#&*!|>'\"%@".toList.contains c || c == '\x60'
  if !(Source.isBlankEnd c || isMark) then true
  else !Source.isBlankEnd (source.peek 1) && (c == '-' || (!inFlow && (c == '?' || c == ':')))

/-- Finds the next token, or the tokens around it. -/
def fetch : Scan Unit := do
  toNextToken ((← get).source.rest.length + 1)
  dropStaleKeys
  let column := (← get).source.column
  closeBlocks column
  let s ← get
  let source := s.source
  let c := source.next
  let bare := Source.isBlankEnd (source.peek 1)
  if source.rest.isEmpty then fetchEnd
  else if c == '%' && column == 0 then fetchDirective
  else if column == 0 && source.hasMark ['-', '-', '-'] then fetchDocumentMark .documentStart
  else if column == 0 && source.hasMark ['.', '.', '.'] then fetchDocumentMark .documentEnd
  else if c == '[' then fetchFlowStart .flowSequence
  else if c == '\x7b' then fetchFlowStart .flowMapping
  else if c == ']' then fetchFlowEnd .flowSequenceEnd
  else if c == '\x7d' then fetchFlowEnd .flowMappingEnd
  else if c == ',' then fetchFlowEntry
  else if c == '-' && bare then fetchBlockEntry
  else if c == '?' && (s.inFlow || bare) then fetchKey
  else if c == ':' && (s.inFlow || bare) then fetchValue
  else if c == '*' then fetchNode (Token.alias <$> name)
  else if c == '&' then fetchNode (Token.anchor <$> name)
  else if c == '!' then fetchNode tag
  else if c == '|' && !s.inFlow then fetchBlockScalar false
  else if c == '>' && !s.inFlow then fetchBlockScalar true
  else if c == '\'' then fetchQuoted false
  else if c == '"' then fetchQuoted true
  else if startsPlain s.inFlow source then fetchPlain
  else fail

/-! ## The queue -/

def needsMore : Scan Bool := do
  let s ← get
  if s.done then return false
  if s.tokens.isEmpty then return true
  dropStaleKeys
  let s ← get
  return s.keys.any fun p => p.2.number == s.taken && s.keys.all fun q => p.2.number ≤ q.2.number

def fill : Nat → Scan Unit
  | 0 => return
  | fuel + 1 => do
    if ← needsMore then
      fetch
      fill fuel

def peekToken : Scan Token := do
  fill ((← get).source.rest.length + 2)
  return (← get).tokens.headD .streamEnd

def dropToken : Scan Unit := do
  let _ ← peekToken
  modify fun s => { s with tokens := s.tokens.tail, taken := s.taken + 1 }

end Scan

end Equilibria.Yaml
