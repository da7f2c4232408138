/-!
# Strings in JSON

A string is written between double quotes.  Quotes and backslashes are written with a backslash,
control characters by a letter or by their code in hexadecimal, and everything else as it is.

Reading accepts every escape of the format.  A character beyond the first plane may be given as an
escaped pair of surrogates; a surrogate without its partner is no character, and a string with one
has no text.
-/

namespace StaticAnalysis.Json

/-! ## Writing -/

/-- The hexadecimal digit of a number below sixteen. -/
def hexDigit (n : Nat) : Char := if n < 10 then Char.ofNat (48 + n) else Char.ofNat (87 + n)

def quoteChar (c : Char) : List Char :=
  if c = '"' then ['\\', '"']
  else if c = '\\' then ['\\', '\\']
  else if c.toNat = 8 then ['\\', 'b']
  else if c.toNat = 9 then ['\\', 't']
  else if c.toNat = 10 then ['\\', 'n']
  else if c.toNat = 12 then ['\\', 'f']
  else if c.toNat = 13 then ['\\', 'r']
  else if c.toNat < 32 then
    ['\\', 'u', '0', '0', hexDigit (c.toNat / 16), hexDigit (c.toNat % 16)]
  else [c]

def quote (s : String) : List Char := '"' :: s.toList.flatMap quoteChar ++ ['"']

/-! ## Reading -/

def hexValue? (c : Char) : Option Nat :=
  if '0' ≤ c ∧ c ≤ '9' then some (c.toNat - 48)
  else if 'a' ≤ c ∧ c ≤ 'f' then some (c.toNat - 87)
  else if 'A' ≤ c ∧ c ≤ 'F' then some (c.toNat - 55)
  else none

def hexValue4? (a b c d : Char) : Option Nat := do
  return 4096 * (← hexValue? a) + 256 * (← hexValue? b) + 16 * (← hexValue? c) + (← hexValue? d)

/-- The code of the character that an escape letter stands for. -/
def escapeCode? (c : Char) : Option Nat :=
  match c with
  | '"' => some 34
  | '\\' => some 92
  | '/' => some 47
  | 'b' => some 8
  | 'f' => some 12
  | 'n' => some 10
  | 'r' => some 13
  | 't' => some 9
  | _ => none

/-- The codes of a string up to its closing quote, and what follows it. -/
def codes? : List Char → Option (List Nat × List Char)
  | [] => none
  | '"' :: rest => some ([], rest)
  | '\\' :: 'u' :: a :: b :: c :: d :: rest => do
    let n ← hexValue4? a b c d
    let (codes, rest) ← codes? rest
    return (n :: codes, rest)
  | '\\' :: e :: rest => do
    let n ← escapeCode? e
    let (codes, rest) ← codes? rest
    return (n :: codes, rest)
  | c :: rest => do
    if c = '\\' ∨ c.toNat < 32 then failure
    let (codes, rest) ← codes? rest
    return (c.toNat :: codes, rest)

def isLeading (n : Nat) : Bool := 0xd800 ≤ n && n < 0xdc00

def isTrailing (n : Nat) : Bool := 0xdc00 ≤ n && n < 0xe000

/-- The characters of a list of codes; `none` if a surrogate has no partner. -/
def chars? : List Nat → Option (List Char)
  | [] => some []
  | [n] => if isLeading n || isTrailing n then none else some [Char.ofNat n]
  | m :: n :: rest =>
    if isLeading m then
      if isTrailing n then
        (chars? rest).map (Char.ofNat (0x10000 + 0x400 * (m - 0xd800) + (n - 0xdc00)) :: ·)
      else none
    else if isTrailing m then none
    else (chars? (n :: rest)).map (Char.ofNat m :: ·)

/-- The text of a string, if it has one, and what follows its closing quote. -/
def unquote? (cs : List Char) : Option (Option String × List Char) :=
  (codes? cs).map fun (codes, rest) => ((chars? codes).map String.ofList, rest)

end StaticAnalysis.Json
