import StaticAnalysis.Memory.Cell
import StaticAnalysis.Numeric.Truth
import StaticAnalysis.Order.Domain

/-!
# Sets of addresses

The cells a pointer may point to.  A target is a cell, or `none` for the null pointer; the set of
all addresses stands for a pointer about which nothing is known.
-/

namespace StaticAnalysis

/-- What a pointer may point to: a cell, or nothing. -/
abbrev Target := Option Cell

/-- The targets of a pointer. -/
inductive AddrSet where
  | any
  | of (targets : SortedSet Target)
deriving DecidableEq

namespace AddrSet

def bottom : AddrSet := .of .empty

def null : AddrSet := .of (.singleton none)

def cell (c : Cell) : AddrSet := .of (.singleton (some c))

/-- A pointer parameter of a function analysed without its callers: null, or an object of the
caller. -/
def ofParam (function param : String) : AddrSet :=
  .of (.ofList [none, some (.ofParam function param)])

def isBottom : AddrSet → Bool
  | .any => false
  | .of targets => targets.isEmpty

def isAny : AddrSet → Bool
  | .any => true
  | .of _ => false

def targets? : AddrSet → Option (SortedSet Target)
  | .any => none
  | .of targets => some targets

/-- The cells a pointer may point to, unless it may point anywhere. -/
def cells? (a : AddrSet) : Option (List Cell) := a.targets?.map fun s => s.toList.filterMap id

/-- The only target, if it stands for exactly one object. -/
def mustCell? (a : AddrSet) : Option Cell :=
  match a.targets?.map (·.toList) with
  | some [some c] => if c.base.isUnique then some c else none
  | _ => none

def field (a : AddrSet) (name : String) : AddrSet :=
  match a with
  | .any => .any
  | .of targets => .of (.ofList (targets.toList.filterMap fun t => t.map fun c =>
    some (c.field name)))

def mayBeNull : AddrSet → Bool
  | .any => true
  | .of targets => targets.contains none

def withoutNull : AddrSet → AddrSet
  | .any => .any
  | .of targets => .of (targets.filter (·.isSome))

/-- Whether two targets may be one object.  An object of the caller is neither allocated by the
function nor one of its locals, and otherwise it may be any object of the caller or a global. -/
def mayAlias : Target → Target → Bool
  | none, none => true
  | some x, some y =>
    match x.base, y.base with
    | .opaqueParam .., .heap _ | .heap _, .opaqueParam .. => false
    | .opaqueParam .., .localVar .. | .localVar .., .opaqueParam .. => false
    | .opaqueParam .., _ | _, .opaqueParam .. => true
    | _, _ => x == y
  | _, _ => false

/-- Whether a target stands for exactly one address. -/
def isDefinite : Target → Bool
  | none => true
  | some c => c.base.isUnique

/-- Equality of pointers.  It holds for certain only for one definite address, and fails for
certain only if no two targets may be one object. -/
def eqTruth (a b : AddrSet) : Truth :=
  match a, b with
  | .of s, .of t =>
    if s.isEmpty || t.isEmpty then .unknown
    else if s.size == 1 && s == t then
      if s.toList.all isDefinite then .true else .unknown
    else if s.toList.any fun x => t.toList.any (mayAlias x) then .unknown
    else .false
  | _, _ => .unknown

/-! ## Order -/

def le : AddrSet → AddrSet → Bool
  | _, .any => true
  | .any, .of _ => false
  | .of s, .of t => s.subset t

def join : AddrSet → AddrSet → AddrSet
  | .of s, .of t => .of (s.union t)
  | _, _ => .any

def meet : AddrSet → AddrSet → AddrSet
  | .any, b => b
  | a, .any => a
  | .of s, .of t => .of (s.inter t)

def targetText : Target → String
  | none => "NULL"
  | some c => "&" ++ c.text

def text : AddrSet → String
  | .any => "⊤"
  | .of targets => "\x7b" ++ ", ".intercalate (targets.toList.map targetText) ++ "\x7d"

/-- Targets are objects of the program, so chains of address sets are finite and the join is a
widening. -/
instance : Domain AddrSet where
  bottom := bottom
  top := .any
  isBottom a := pure a.isBottom
  isTop a := pure a.isAny
  le a b := pure (a.le b)
  join a b := pure (a.join b)
  meet a b := pure (a.meet b)
  widen a b := pure (a.join b)
  narrow a b := pure (a.meet b)

end AddrSet
end StaticAnalysis
