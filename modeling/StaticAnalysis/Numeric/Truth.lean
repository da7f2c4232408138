/-!
# Three-valued truth

What is known about a condition: it holds, it fails, or nothing is known.
-/

namespace StaticAnalysis

/-- The truth of a condition over a set of concrete states. -/
inductive Truth where
  | true
  | false
  | unknown
deriving DecidableEq, Repr

namespace Truth

def ofBool (b : Bool) : Truth := if b then .true else .false

def not : Truth → Truth
  | .true => .false
  | .false => .true
  | .unknown => .unknown

def and : Truth → Truth → Truth
  | .false, _ => .false
  | _, .false => .false
  | .true, .true => .true
  | _, _ => .unknown

def or (a b : Truth) : Truth := (a.not.and b.not).not

/-- What is known when either of two facts may apply. -/
def join (a b : Truth) : Truth := if a = b then a else .unknown

def text : Truth → String
  | .true => "true"
  | .false => "false"
  | .unknown => "unknown"

def ofText? (s : String) : Option Truth := [Truth.true, .false, .unknown].find? (·.text == s)

end Truth
end StaticAnalysis
