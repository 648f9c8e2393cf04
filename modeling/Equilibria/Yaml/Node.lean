import Equilibria.Yaml.Tag
import Equilibria.Yaml.Token

/-!
# Nodes

The tree of a document. An alias is the node of its anchor, or a loop where it stands inside that
very node.
-/

namespace Equilibria.Yaml

inductive Node where
  | scalar (tag : Tag) (text : String)
  | sequence (tag : Tag) (items : List Node)
  | mapping (tag : Tag) (entries : List (Node × Node))
  /-- A collection inside itself. -/
  | loop (ofEntries : Bool)

instance : Inhabited Node := ⟨.scalar .null ""⟩

structure Builder where
  scanner : Scanner
  anchors : List (String × Node)
  handles : List (String × String)

abbrev Build (β : Type) := StateT Builder (Except Error) β

namespace Build

def scan {β : Type} (s : Scan β) : Build β := do
  let b ← get
  let (x, scanner) ← s.run b.scanner
  set { b with scanner := scanner }
  return x

def peek : Build Token := scan Scan.peekToken

def drop : Build Unit := scan Scan.dropToken

def fail {β : Type} : Build β := throw .badStructure

def accept (t : Token) : Build Bool := do
  if (← peek) == t then
    drop
    return true
  else return false

/-- The anchor and the tag in front of a node, in either order. -/
structure Marks where
  anchor : Option String
  tag : Option (Option String × String)

def takeAnchor : Build (Option String) := do
  match ← peek with
  | .anchor name =>
    drop
    return some name
  | _ => return none

def takeTag : Build (Option (Option String × String)) := do
  match ← peek with
  | .tag handle suffix =>
    drop
    return some (handle, suffix)
  | _ => return none

def takeMarks : Build Marks := do
  match ← takeAnchor with
  | some name => return ⟨some name, ← takeTag⟩
  | none =>
    match ← takeTag with
    | some tag => return ⟨← takeAnchor, some tag⟩
    | none => return ⟨none, none⟩

def tagName : Option String × String → Build String
  | (none, suffix) => return suffix
  | (some handle, suffix) => do
    match (← get).handles.find? (·.1 == handle) with
    | some (_, tagPrefix) => return tagPrefix ++ suffix
    | none => fail

def scalarTag (name : Option String) (text : String) (plain : Bool) : Tag :=
  match name with
  | none => if plain then .ofPlain text else .text
  | some "!" => .ofPlain text
  | some name => .ofName name

def collectionTag (name : Option String) (standard : Tag) : Tag :=
  match name with
  | none | some "!" => standard
  | some name => .ofName name

def empty : Node := .scalar .null ""

/-- No anchor may be given twice. -/
def checkAnchor (name : Option String) : Build Unit := do
  match name with
  | some name => if (← get).anchors.any (·.1 == name) then throw .badReference
  | none => return

/-- Makes a node the one of an anchor; the last one counts. -/
def saveAnchor (name : Option String) (n : Node) : Build Unit := do
  match name with
  | some name => modify fun b => { b with anchors := (name, n) :: b.anchors }
  | none => return

/-- Names a collection before its content is read, which may refer to it. -/
def openAnchor (name : Option String) (ofEntries : Bool) : Build Unit := do
  checkAnchor name
  saveAnchor name (.loop ofEntries)

def lookUp (name : String) : Build Node := do
  match (← get).anchors.find? (·.1 == name) with
  | some (_, n) => return n
  | none => throw .badReference

def endsIn (ends : List Token) : Build Bool := return ends.contains (← peek)

mutual

/-- One node. Block collections are allowed if `block` says so, and a sequence without an indent
of its own if `indentless` does. -/
def node (block indentless : Bool) : Nat → Build Node
  | 0 => fail
  | fuel + 1 => do
    match ← peek with
    | .alias name =>
      drop
      lookUp name
    | _ =>
      let marks ← takeMarks
      let name ← marks.tag.mapM tagName
      let close (n : Node) : Build Node := do
        saveAnchor marks.anchor n
        return n
      let sequence (items : Build (List Node)) : Build Node := do
        openAnchor marks.anchor false
        close (.sequence (collectionTag name .sequence) (← items))
      let mapping (entries : Build (List (Node × Node))) : Build Node := do
        openAnchor marks.anchor true
        close (.mapping (collectionTag name .mapping) (← entries))
      match ← peek with
      | .blockEntry =>
        if indentless then sequence (indentlessItems fuel)
        else if marks.anchor.isSome || name.isSome then
          checkAnchor marks.anchor
          close (.scalar (scalarTag name "" true) "")
        else fail
      | .scalar text plain =>
        drop
        checkAnchor marks.anchor
        close (.scalar (scalarTag name text plain) text)
      | .flowSequence =>
        drop
        sequence (flowItems true fuel)
      | .flowMapping =>
        drop
        mapping (flowEntries true fuel)
      | t =>
        if block && t == .blockSequence then
          drop
          sequence (blockItems fuel)
        else if block && t == .blockMapping then
          drop
          mapping (blockEntries fuel)
        else if marks.anchor.isSome || name.isSome then
          checkAnchor marks.anchor
          close (.scalar (scalarTag name "" true) "")
        else fail

def nodeBefore (ends : List Token) (block indentless : Bool) : Nat → Build Node
  | 0 => fail
  | fuel + 1 => do if ← endsIn ends then return empty else node block indentless fuel

def blockItems : Nat → Build (List Node)
  | 0 => fail
  | fuel + 1 => do
    if ← accept .blockEntry then
      let n ← nodeBefore [.blockEntry, .blockEnd] true false fuel
      return n :: (← blockItems fuel)
    else if ← accept .blockEnd then return []
    else fail

def indentlessItems : Nat → Build (List Node)
  | 0 => fail
  | fuel + 1 => do
    if ← accept .blockEntry then
      let n ← nodeBefore [.blockEntry, .key, .value, .blockEnd] true false fuel
      return n :: (← indentlessItems fuel)
    else return []

def blockEntries : Nat → Build (List (Node × Node))
  | 0 => fail
  | fuel + 1 => do
    if ← accept .key then
      let k ← nodeBefore [.key, .value, .blockEnd] true true fuel
      let v ← if ← accept .value then nodeBefore [.key, .value, .blockEnd] true true fuel
        else pure empty
      return (k, v) :: (← blockEntries fuel)
    else if ← accept .blockEnd then return []
    else fail

/-- The items of a flow sequence. An item with a colon is a mapping of one entry. -/
def flowItems (first : Bool) : Nat → Build (List Node)
  | 0 => fail
  | fuel + 1 => do
    if ← accept .flowSequenceEnd then return []
    if !first then
      if !(← accept .flowEntry) then fail
    if ← accept .key then
      let k ← nodeBefore [.value, .flowEntry, .flowSequenceEnd] false false fuel
      let v ← if ← accept .value then nodeBefore [.flowEntry, .flowSequenceEnd] false false fuel
        else pure empty
      return .mapping .mapping [(k, v)] :: (← flowItems false fuel)
    else if ← accept .flowSequenceEnd then return []
    else
      let n ← node false false fuel
      return n :: (← flowItems false fuel)

def flowEntries (first : Bool) : Nat → Build (List (Node × Node))
  | 0 => fail
  | fuel + 1 => do
    if ← accept .flowMappingEnd then return []
    if !first then
      if !(← accept .flowEntry) then fail
    if ← accept .key then
      let k ← nodeBefore [.value, .flowEntry, .flowMappingEnd] false false fuel
      let v ← if ← accept .value then nodeBefore [.flowEntry, .flowMappingEnd] false false fuel
        else pure empty
      return (k, v) :: (← flowEntries false fuel)
    else if ← accept .flowMappingEnd then return []
    else
      let k ← node false false fuel
      return (k, empty) :: (← flowEntries false fuel)

end

/-! ## Documents -/

def standardHandles : List (String × String) := [("!", "!"), ("!!", Tag.standardPrefix)]

/-- The directives in front of a document. The version has to be given once at most and start
with one, and no handle may be given twice. -/
def directives (version : Bool) (handles : List (String × String)) :
    Nat → Build (List (String × String))
  | 0 => fail
  | fuel + 1 => do
    match ← peek with
    | .versionDirective major _ =>
      if version || major != 1 then fail
      drop
      directives true handles fuel
    | .tagDirective handle tagPrefix =>
      if handles.any (·.1 == handle) then fail
      drop
      directives version (handles ++ [(handle, tagPrefix)]) fuel
    | .otherDirective =>
      drop
      directives version handles fuel
    | _ => return handles

def dropEnds : Nat → Build Unit
  | 0 => return
  | fuel + 1 => do if ← accept .documentEnd then dropEnds fuel

/-- Whether an explicit document starts. If none does, the text has to be over. -/
def startDocument (fuel : Nat) : Build Bool := do
  dropEnds fuel
  if (← peek) == .streamEnd then return false
  let handles ← directives false [] fuel
  if !(← accept .documentStart) then fail
  modify fun b => { b with handles := handles ++ standardHandles }
  return true

def startsExplicit : Token → Bool
  | .versionDirective .. | .tagDirective .. | .otherDirective | .documentStart | .streamEnd => true
  | _ => false

/-- The only document of a text, if there is one. -/
def single (fuel : Nat) : Build (Option Node) := do
  let first ← peek
  if startsExplicit first then
    if !(← startDocument fuel) then return none
  let n ←
    match ← peek with
    | .versionDirective .. | .tagDirective .. | .otherDirective | .documentStart | .documentEnd
    | .streamEnd => if startsExplicit first then pure empty else fail
    | _ => node true false fuel
  let _ ← accept .documentEnd
  if ← startDocument fuel then throw .badReference
  return some n

end Build

def Node.ofText (s : String) : Except Error (Option Node) := do
  let source ← Source.ofText s
  let fuel := 4 * source.rest.length + 16
  let (n, _) ← (Build.single fuel).run ⟨Scanner.ofSource source, [], Build.standardHandles⟩
  return n

end Equilibria.Yaml
