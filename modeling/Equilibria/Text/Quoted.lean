import Equilibria.Text.Printable

/-!
# Quoted text

Text in quotes, on one line of printable characters. The quotes are single unless the text
holds single quotes and no double ones.
-/

namespace Equilibria.Text

/-- `n` in hexadecimal, filled up with zeros to `width`. -/
def hexDigits (n width : Nat) : List Char :=
  let cs := Nat.toDigits 16 n
  List.replicate (width - cs.length) '0' ++ cs

/-- A character inside `quote`s. One that is not printable is written by its code point. -/
def escape (quote c : Char) : List Char :=
  if c == quote || c == '\\' then ['\\', c]
  else if c == '\n' then ['\\', 'n']
  else if c == '\r' then ['\\', 'r']
  else if c == '\t' then ['\\', 't']
  else if isPrintable c then [c]
  else if c.toNat < 0x100 then '\\' :: 'x' :: hexDigits c.toNat 2
  else if c.toNat < 0x10000 then '\\' :: 'u' :: hexDigits c.toNat 4
  else '\\' :: 'U' :: hexDigits c.toNat 8

def quoteFor (cs : List Char) : Char :=
  if cs.contains '\'' && !cs.contains '"' then '"' else '\''

def quoted (s : String) : String :=
  let cs := s.toList
  let q := quoteFor cs
  String.ofList (q :: cs.flatMap (escape q) ++ [q])

end Equilibria.Text
