import StaticAnalysis.Program.Graph

/-!
# Memory cells

A cell is an abstract memory location: an object and a path of fields into it.  Objects are local
and global variables, heap allocation sites, and the caller's objects behind the pointer
parameters of a function that is analysed without its callers.

Cells are ordered by object and then by path, with locals before globals, heap sites and opaque
objects; the parts of a cell therefore follow it without a gap.
-/

namespace StaticAnalysis

/-- The object a cell belongs to. -/
inductive Base where
  /-- A local variable or parameter of a function. -/
  | localVar (function name : String)
  | globalVar (name : String)
  /-- All objects allocated at one edge. -/
  | heap (edge : Nat)
  /-- An object of the caller, reached through a parameter. -/
  | opaqueParam (function param : String)
deriving DecidableEq, Repr

namespace Base

/-- Whether the base stands for exactly one object. -/
def isUnique : Base → Bool
  | .localVar .. | .globalVar _ => true
  | .heap _ | .opaqueParam .. => false

/-- The position of a kind of object in the order of cells. -/
def rank : Base → Nat
  | .localVar .. => 0
  | .globalVar _ => 1
  | .heap _ => 2
  | .opaqueParam .. => 3

def owner : Base → String
  | .localVar function _ => function
  | .globalVar name => name
  | .heap _ => ""
  | .opaqueParam function _ => function

def label : Base → String
  | .localVar _ name => name
  | .globalVar _ => ""
  | .heap _ => ""
  | .opaqueParam _ param => param

def site : Base → Nat
  | .heap edge => edge
  | _ => 0

instance : Ord Base where
  compare :=
    compareLex (compareOn rank)
      (compareLex (compareOn site) (compareLex (compareOn owner) (compareOn label)))

instance : Std.TransOrd Base :=
  inferInstanceAs (Std.TransCmp (compareLex (compareOn rank)
    (compareLex (compareOn site) (compareLex (compareOn owner) (compareOn label)))))

instance : Std.LawfulEqOrd Base :=
  Order.Reads.lawful (.lex .on <| .lex .on <| .lex .on .on)
    fun a b h => by cases a <;> cases b <;> simp_all [rank, site, owner, label]

end Base

/-- An abstract memory location. -/
structure Cell where
  base : Base
  path : List String
deriving DecidableEq, Repr

namespace Cell

instance : Ord Cell where
  compare := compareLex (compareOn base) (compareOn path)

instance : Std.TransOrd Cell :=
  inferInstanceAs (Std.TransCmp (compareLex (compareOn base) (compareOn path)))

instance : Std.LawfulEqOrd Cell :=
  Order.Reads.lawful (.lex .on .on) fun a b h => by cases a; cases b; simp_all

variable (c d : Cell) (function name : String)

def ofLocal : Cell := ⟨.localVar function name, []⟩

def ofGlobal : Cell := ⟨.globalVar name, []⟩

/-- The cell of the objects allocated at an edge. -/
def ofHeap (edge : Nat) : Cell := ⟨.heap edge, []⟩

/-- The cell of the caller's object behind a parameter. -/
def ofParam (function param : String) : Cell := ⟨.opaqueParam function param, []⟩

def field : Cell := { c with path := c.path ++ [name] }

/-- The part of a cell at the end of a path of fields. -/
def fields (path : List String) : Cell := path.foldl field c

def isWithin : Bool := c.base == d.base && d.path.isPrefixOf c.path

def isLocal : Bool := c.base.rank == 0

def isGlobal : Bool := c.base.rank == 1

def isHeap : Bool := c.base.rank == 2

def isOpaque : Bool := c.base.rank == 3

def isLocalOf : Bool := c.isLocal && c.base.owner == function

/-- The function and name of a cell that is a whole local variable. -/
def localVar? : Option (String × String) :=
  match c with
  | ⟨.localVar function name, []⟩ => some (function, name)
  | _ => none

def text : String :=
  let root := match c.base with
    | .localVar _ name => name
    | .globalVar name => name
    | .heap edge => "heap@" ++ edgeName edge
    | .opaqueParam _ param => "(*" ++ param ++ ")"
  c.path.foldl (fun s f => s ++ "." ++ f) root

end Cell
end StaticAnalysis
