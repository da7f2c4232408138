/-!
# Fields of option texts

Options are written as names and numbers, separated by commas or colons, with blanks around them.
`isBlank` is the White_Space property of Unicode, and `unsigned?` reads a decimal number with an
optional plus sign.
-/

namespace StaticAnalysis.Text

/-- The characters with the Unicode property White_Space. -/
def isBlank (c : Char) : Bool :=
  let n := c.toNat
  (9 ≤ n && n ≤ 13) || n == 0x20 || n == 0x85 || n == 0xa0 || n == 0x1680 ||
    (0x2000 ≤ n && n ≤ 0x200a) || n == 0x2028 || n == 0x2029 || n == 0x202f || n == 0x205f ||
    n == 0x3000

/-- The characters without the blanks at both ends. -/
def trimChars (cs : List Char) : List Char :=
  ((cs.dropWhile isBlank).reverse.dropWhile isBlank).reverse

def trim (s : String) : String := String.ofList (trimChars s.toList)

/-- The parts between commas, trimmed, without those that are empty. -/
def fields (s : String) : List String :=
  ((s.splitOn ",").map trim).filter (· != "")

def splitColon (s : String) : String × Option String :=
  let cs := s.toList
  match cs.dropWhile (· != ':') with
  | [] => (s, none)
  | _ :: rest => (String.ofList (cs.takeWhile (· != ':')), some (String.ofList rest))

def digits? : List Char → Option Nat
  | [] => none
  | cs =>
    if cs.all Char.isDigit then some (cs.foldl (fun n c => 10 * n + (c.toNat - 48)) 0) else none

/-- A decimal number below `limit`, with an optional plus sign. -/
def unsigned? (limit : Nat) (s : String) : Option Nat :=
  let n? := match s.toList with
    | '+' :: cs => digits? cs
    | cs => digits? cs
  n?.filter (· < limit)

end StaticAnalysis.Text
