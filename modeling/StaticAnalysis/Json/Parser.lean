import StaticAnalysis.Json.Basic

/-!
# Reading JSON

`Json.parse?` reads a whole text as one value with blanks around it.
-/

namespace StaticAnalysis

namespace Json

def isSpace (c : Char) : Bool := c == ' ' || c == '\n' || c == '\t' || c == '\r'

variable (cs : List Char)

def skip : List Char := cs.dropWhile isSpace

/-- Digits, at least one, and what follows them. -/
def digits? : Option (List Char × List Char) :=
  let digits := cs.takeWhile Char.isDigit
  if digits.isEmpty then none else some (digits, cs.dropWhile Char.isDigit)

/-- The fraction of a number, if there is one: whether it is there, and what follows. -/
def fraction? : List Char → Option (Bool × List Char)
  | '.' :: cs => (digits? cs).map fun (_, rest) => (true, rest)
  | cs => some (false, cs)

/-- The exponent of a number, if there is one: whether it is there, and what follows. -/
def exponent? : Option (Bool × List Char) :=
  match cs with
  | c :: rest =>
    if c = 'e' ∨ c = 'E' then
      let rest := match rest with
        | s :: r => if s = '+' ∨ s = '-' then r else rest
        | [] => rest
      (digits? rest).map fun (_, rest) => (true, rest)
    else some (false, cs)
  | [] => some (false, cs)

/-- A number and what follows it.  Only zero itself starts with a zero. -/
def number? : Option (Option Nat × List Char) := do
  let (negative, cs) := match cs with
    | '-' :: rest => (true, rest)
    | _ => (false, cs)
  let (digits, cs) ← digits? cs
  if digits.head? = some '0' ∧ digits.length ≠ 1 then failure
  let (fraction, cs) ← fraction? cs
  let (exponent, cs) ← exponent? cs
  let value := digits.foldl (fun n c => 10 * n + (c.toNat - 48)) 0
  return (if negative || fraction || exponent then none else some value, cs)

/-- What follows a word at the start of a text. -/
def after? : List Char → List Char → Option (List Char)
  | [], cs => some cs
  | _ :: _, [] => none
  | a :: word, c :: cs => if a = c then after? word cs else none

mutual

/-- A value and what follows it, with at most `fuel` nested or consecutive parts. -/
def value? : Nat → List Char → Option (Json × List Char)
  | 0, _ => none
  | fuel + 1, cs =>
    match skip cs with
    | '[' :: rest =>
      match skip rest with
      | ']' :: rest => some (.list [], rest)
      | _ => (items? fuel rest).map fun (items, rest) => (.list items, rest)
    | '\x7b' :: rest =>
      match skip rest with
      | '\x7d' :: rest => some (.object [], rest)
      | _ => (fields? fuel rest).map fun (fields, rest) => (.object fields, rest)
    | '"' :: rest => (unquote? rest).map fun (s, rest) => (.text s, rest)
    | cs =>
      match after? ['n', 'u', 'l', 'l'] cs with
      | some rest => some (.null, rest)
      | none =>
        match after? ['t', 'r', 'u', 'e'] cs with
        | some rest => some (.bool true, rest)
        | none =>
          match after? ['f', 'a', 'l', 's', 'e'] cs with
          | some rest => some (.bool false, rest)
          | none => (number? cs).map fun (n, rest) => (.number n, rest)

/-- The items of a list up to its closing bracket, and what follows it. -/
def items? : Nat → List Char → Option (List Json × List Char)
  | 0, _ => none
  | fuel + 1, cs => do
    let (v, rest) ← value? fuel cs
    match skip rest with
    | ',' :: rest =>
      let (items, rest) ← items? fuel rest
      return (v :: items, rest)
    | ']' :: rest => return ([v], rest)
    | _ => failure

/-- The fields of an object up to its closing brace, and what follows it. -/
def fields? : Nat → List Char → Option (List (Option String × Json) × List Char)
  | 0, _ => none
  | fuel + 1, cs => do
    match skip cs with
    | '"' :: rest =>
      let (name, rest) ← unquote? rest
      match skip rest with
      | ':' :: rest =>
        let (v, rest) ← value? fuel rest
        match skip rest with
        | ',' :: rest =>
          let (fields, rest) ← fields? fuel rest
          return ((name, v) :: fields, rest)
        | '\x7d' :: rest => return ([(name, v)], rest)
        | _ => failure
      | _ => failure
    | _ => failure

end

/-- The value that a text is.  Every part takes a character at least, so the length of the text
bounds the parts. -/
def parse? (s : String) : Option Json := do
  let (v, rest) ← value? (s.toList.length + 1) s.toList
  if (skip rest).isEmpty then return v else failure

end Json
end StaticAnalysis
