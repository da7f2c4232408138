import StaticAnalysis.Json.Text

/-!
# JSON values

Of numbers only natural ones matter here: a number with a sign, a fraction or an exponent is kept
without its value.  Likewise a string that is not a sequence of characters is kept without its text.

Values are written with one element of a list or an object on each line, two blanks for each level,
and the closing bracket on a line of its own.  Without elements, lists and objects are just their
brackets.
-/

namespace StaticAnalysis

inductive Json where
  | null
  | bool (b : Bool)
  /-- A number, with its value if it is written as a natural number. -/
  | number (value : Option Nat)
  /-- A string, with its text if it has one. -/
  | text (value : Option String)
  | list (items : List Json)
  | object (fields : List (Option String × Json))

namespace Json

/-! ## Making values -/

def ofNat (n : Nat) : Json := .number (some n)

def ofString (s : String) : Json := .text (some s)

def ofOption {α : Type} (f : α → Json) : Option α → Json
  | some a => f a
  | none => .null

def ofList {α : Type} (f : α → Json) (l : List α) : Json := .list (l.map f)

def ofFields (fields : List (String × Json)) : Json :=
  .object (fields.map fun (k, v) => (some k, v))

/-- The object whose only field says which alternative the value is. -/
def alternative (name : String) (value : Json) : Json := ofFields [(name, value)]

/-! ## Taking values apart -/

/-- The fields of an object whose names are texts. -/
def object? : Json → Option (List (String × Json))
  | .object fields => fields.mapM fun (name, v) => name.map (·, v)
  | _ => none

def list? : Json → Option (List Json)
  | .list items => some items
  | _ => none

def text? : Json → Option String
  | .text s => s
  | _ => none

def word32? : Json → Option Nat
  | .number n => n.filter (· < 0x100000000)
  | _ => none

/-- The value of a field that may be missing but must not be there twice. -/
def optional? (fields : List (String × Json)) (name : String) : Option (Option Json) :=
  match fields.filter (·.1 == name) with
  | [] => some none
  | [(_, v)] => some (some v)
  | _ => none

/-! ## Writing -/

def indent (depth : Nat) : List Char := '\n' :: List.replicate (2 * depth) ' '

def writeNumber (n : Option Nat) : List Char := Nat.toDigits 10 (n.getD 0)

def writeText (s : Option String) : List Char := quote (s.getD "")

mutual

def write (depth : Nat) : Json → List Char
  | .null => ['n', 'u', 'l', 'l']
  | .bool true => ['t', 'r', 'u', 'e']
  | .bool false => ['f', 'a', 'l', 's', 'e']
  | .number n => writeNumber n
  | .text s => writeText s
  | .list [] => ['[', ']']
  | .list (v :: items) =>
    '[' :: indent (depth + 1) ++ write (depth + 1) v ++ writeItems (depth + 1) items ++
      indent depth ++ [']']
  | .object [] => ['\x7b', '\x7d']
  | .object ((name, v) :: fields) =>
    '\x7b' :: indent (depth + 1) ++ writeText name ++ [':', ' '] ++ write (depth + 1) v ++
      writeFields (depth + 1) fields ++ indent depth ++ ['\x7d']

def writeItems (depth : Nat) : List Json → List Char
  | [] => []
  | v :: items => ',' :: indent depth ++ write depth v ++ writeItems depth items

def writeFields (depth : Nat) : List (Option String × Json) → List Char
  | [] => []
  | (name, v) :: fields =>
    ',' :: indent depth ++ writeText name ++ [':', ' '] ++ write depth v ++ writeFields depth fields

end

def render (v : Json) : String := String.ofList (v.write 0)

end Json
end StaticAnalysis
