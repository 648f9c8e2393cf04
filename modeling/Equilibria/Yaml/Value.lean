import Equilibria.Options.Basic
import Equilibria.Scalar
import Equilibria.Value.Arithmetic
import Equilibria.Yaml.Moment
import Equilibria.Yaml.Node

/-!
# Values of nodes

The value that a tree of nodes stands for. A merge key takes over the entries of other mappings,
in front of the ones that are written out.
-/

namespace Equilibria.Yaml

/-! ## Scalars -/

def boolOf (s : String) : Except Error Value :=
  let word := s.map Char.toLower
  if ["yes", "true", "on"].contains word then .ok (.bool true)
  else if ["no", "false", "off"].contains word then .ok (.bool false)
  else .error (.unbound ⟨word, []⟩)

/-- A sign in front, as one or minus one, and the rest. -/
def signOf : List Char → Int × List Char
  | '-' :: r => (-1, r)
  | '+' :: r => (1, r)
  | r => (1, r)

/-- A whole number in a base up to sixteen. -/
def inBase (base : Nat) (cs : List Char) : Except Error Nat :=
  let digit (c : Char) : Option Nat := if isHex c then some (hexValue [c]) else none
  match cs.mapM digit with
  | some ds => if ds.isEmpty || ds.any (base ≤ ·) then .error .badValue
    else .ok (ds.foldl (fun n d => base * n + d) 0)
  | none => .error .badValue

/-- A whole number, in base sixty if there are colons. -/
def sixtiesOf (cs : List Char) : Except Error Int := do
  let parts ← (Tag.colonParts cs).mapM fun p =>
    match Decimal.readWhole? (String.ofList p) with
    | some n => .ok n
    | none => .error .badValue
  return parts.foldl (fun n d => 60 * n + d) 0

def intOf (s : String) : Except Error Value := do
  let (sign, cs) := signOf (s.toList.filter (· != '_'))
  let n : Int ← match cs with
    | [] => .error .noItem
    | ['0'] => .ok 0
    | '0' :: 'b' :: r => Int.ofNat <$> inBase 2 r
    | '0' :: 'x' :: r => Int.ofNat <$> inBase 16 r
    | '0' :: r => Int.ofNat <$> inBase 8 r
    | cs => sixtiesOf cs
  return .int (sign * n)

def floatOf (s : String) : Except Error Value := do
  let all := (s.toList.filter (· != '_')).map Char.toLower
  if all.isEmpty then throw .noItem
  let (sign, cs) := signOf all
  let x ←
    if cs == ".inf".toList then pure Double.infinity
    else if cs == ".nan".toList then pure notANumber
    else do
      let parts ← (Tag.colonParts cs).mapM fun p =>
        match doubleOfText (String.ofList p) with
        | .ok x => .ok x
        | .error _ => .error .badValue
      -- The last part counts ones, the one before it sixties, and so on.
      pure (parts.reverse.foldl (fun (acc, base) d => (acc + d * base, base * 60.0)) (0.0, 1.0)).1
  return .ofDouble (if sign < 0 then -x else x)

def base64Value? (c : Char) : Option Nat :=
  let n := c.toNat
  if 'A' ≤ c && c ≤ 'Z' then some (n - 65)
  else if 'a' ≤ c && c ≤ 'z' then some (n - 71)
  else if c.isDigit then some (n + 4)
  else if c == '+' then some 62
  else if c == '/' then some 63
  else none

/-- The bytes of six-bit digits, four of which make three bytes. -/
def base64Bytes : List Nat → Option (List Nat)
  | [] => some []
  | [_] => none
  | [a, b] => some [(a * 64 + b) / 16]
  | [a, b, c] => let n := (a * 64 + b) * 64 + c; some [n / 1024, n / 4 % 256]
  | a :: b :: c :: d :: r =>
    let n := ((a * 64 + b) * 64 + c) * 64 + d
    (base64Bytes r).map ([n / 65536, n / 256 % 256, n % 256] ++ ·)

def bytesText (bytes : List Nat) : String :=
  let cs := bytes.map Char.ofNat
  let q := Text.quoteFor cs
  let one (c : Char) : List Char :=
    if 0x7f ≤ c.toNat then '\\' :: 'x' :: Text.hexDigits c.toNat 2 else Text.escape q c
  String.ofList ('b' :: q :: cs.flatMap one ++ [q])

def binaryOf (s : String) : Except Error Value :=
  let cs := s.toList
  let digits := (cs.takeWhile (· != '=')).filterMap base64Value?
  let padding := cs.countP (· == '=')
  let needed := (4 - digits.length % 4) % 4
  if cs.any fun c => 0x7f < c.toNat then .error .badTag
  else if padding < needed then .error .badTag
  else match base64Bytes digits with
    | some bytes => let t := bytesText bytes; .ok (.sealed t t)
    | none => .error .badTag

def scalarOf (tag : Tag) (s : String) : Except Error Value :=
  match tag with
  | .null => .ok .null
  | .bool => boolOf s
  | .int => intOf s
  | .float => floatOf s
  | .timestamp =>
    if Tag.isDateForm s.toList || Tag.isMomentForm s.toList then momentOf s else .error .noAttribute
  | .text => .ok (.text s)
  | .binary => binaryOf s
  | _ => .error .badTag

/-! ## Trees -/

def checkKey (k : Value) : Except Error Unit := if k.isFixed then .ok () else .error .badTag

mutual

/-- The text that a mapping stands for where a scalar is wanted: the one of its entry `=`. -/
def Node.scalarText? : Node → Option String
  | .scalar _ s => some s
  | .mapping _ entries => entryText? entries
  | .sequence .. | .loop _ => none

def entryText? : List (Node × Node) → Option String
  | [] => none
  | (k, v) :: r =>
    match k with
    | .scalar .equals _ => v.scalarText?
    | _ => entryText? r

end

mutual

def Node.value : Node → Except Error Value
  | .scalar tag s => scalarOf tag s
  | .sequence tag items =>
    match tag with
    | .sequence => do return .list (← itemValues items)
    | .omap | .pairs => do return .list (← pairValues items)
    | _ => .error .badTag
  | .mapping tag entries =>
    match tag with
    | .mapping => do return .map (← entryMap entries)
    | .set => do
      let keys := (← entryMap entries).map (·.1)
      let t := if keys.isEmpty then "set()"
        else "\x7b" ++ ", ".intercalate (keys.map Value.repr) ++ "\x7d"
      return .sealed t t
    | tag =>
      match entryText? entries with
      | some s => scalarOf tag s
      | none => .error .badTag
  | .loop ofEntries =>
    let t := if ofEntries then "\x7b...\x7d" else "[...]"
    .ok (.sealed t t)

def itemValues : List Node → Except Error (List Value)
  | [] => .ok []
  | n :: r => do
    let v ← n.value
    return v :: (← itemValues r)

/-- The items of a list of pairs, each of them a mapping of one entry. -/
def pairValues : List Node → Except Error (List Value)
  | [] => .ok []
  | .mapping _ [(k, v)] :: r => do
    let k ← k.value
    let v ← v.value
    return .tuple [k, v] :: (← pairValues r)
  | _ => .error .badTag

/-- The entries of a mapping, with the merged ones in front. -/
def entryMap (entries : List (Node × Node)) : Except Error (List (Value × Value)) := do
  let (merged, own) ← entryValues entries
  return (merged ++ own).foldl Options.putEntry []

/-- The entries that are merged into a mapping, and its own. -/
def entryValues : List (Node × Node) → Except Error (List (Value × Value) × List (Value × Value))
  | [] => .ok ([], [])
  | (k, v) :: r => do
    match k with
    | .scalar .merge _ =>
      let here ← mergedValues v
      let (merged, own) ← entryValues r
      return (here ++ merged, own)
    | .scalar .equals s =>
      let x ← v.value
      let (merged, own) ← entryValues r
      return (merged, (.text s, x) :: own)
    | .loop _ => .error .badTag
    | k =>
      let name ← k.value
      checkKey name
      let x ← v.value
      let (merged, own) ← entryValues r
      return (merged, (name, x) :: own)

/-- The entries of a mapping, or of several with the first one last. -/
def mergedValues : Node → Except Error (List (Value × Value))
  | .mapping _ entries => do
    let (merged, own) ← entryValues entries
    return merged ++ own
  | .sequence _ items => mergedItems items
  | .loop _ => .ok []
  | .scalar .. => .error .badTag

def mergedItems : List Node → Except Error (List (Value × Value))
  | [] => .ok []
  | .mapping _ entries :: r => do
    let (merged, own) ← entryValues entries
    return (← mergedItems r) ++ (merged ++ own)
  | _ => .error .badTag

end

/-- The value of a text. An empty one has no value. -/
def read (s : String) : Except Error Value := do
  match ← Node.ofText s with
  | some n => n.value
  | none => return .null

end Equilibria.Yaml
