/-!
# Expressions, locations and conditions

The expressions that occur on the transitions of a program.  An expression reads memory through
lvalues, an lvalue may compute an index or follow a pointer, and a condition compares expressions
and can itself be used as an integer, so the three are defined together.
-/

namespace StaticAnalysis

/-- Binary integer operations.  Division truncates toward zero and the remainder has the sign of
the dividend. -/
inductive ArithOp where
  | add
  | sub
  | mul
  | div
  | mod
deriving DecidableEq, Repr

def ArithOp.symbol : ArithOp → String
  | .add => "+"
  | .sub => "-"
  | .mul => "*"
  | .div => "/"
  | .mod => "%"

/-- Comparisons of two integers or pointers. -/
inductive CmpOp where
  | eq
  | ne
  | lt
  | le
  | gt
  | ge
deriving DecidableEq, Repr

def CmpOp.symbol : CmpOp → String
  | .eq => "=="
  | .ne => "!="
  | .lt => "<"
  | .le => "<="
  | .gt => ">"
  | .ge => ">="

/-- The comparison that holds exactly when `op` fails. -/
def CmpOp.negate : CmpOp → CmpOp
  | .eq => .ne
  | .ne => .eq
  | .lt => .ge
  | .le => .gt
  | .gt => .le
  | .ge => .lt

/-- The comparison with its two sides exchanged. -/
def CmpOp.swap : CmpOp → CmpOp
  | .eq => .eq
  | .ne => .ne
  | .lt => .gt
  | .le => .ge
  | .gt => .lt
  | .ge => .le

mutual

/-- Expressions. -/
inductive Expr where
  | const (n : Int)
  | read (lv : LValue)
  | addrOf (lv : LValue)
  | null
  /-- Any integer. -/
  | unknown
  /-- A construct the front end does not model; any value. -/
  | unsupported (what : String)
  | arith (op : ArithOp) (a b : Expr)
  | neg (e : Expr)
  /-- A condition as an integer, `1` or `0`. -/
  | truth (c : Cond)

/-- Designators of memory. -/
inductive LValue where
  | var (name : String)
  | field (base : LValue) (name : String)
  | index (base : LValue) (i : Expr)
  | deref (p : Expr)

/-- Conditions of guards and checks. -/
inductive Cond where
  | always
  | never
  | cmp (op : CmpOp) (a b : Expr)
  | not (c : Cond)
  | and (p q : Cond)
  | or (p q : Cond)

end

deriving instance DecidableEq for Expr, LValue, Cond

instance : Inhabited Expr := ⟨.null⟩

instance : Inhabited LValue := ⟨.var ""⟩

instance : Inhabited Cond := ⟨.always⟩

def Expr.var (name : String) : Expr := .read (.var name)

def Expr.truthy (e : Expr) : Cond := .cmp .ne e (.const 0)

/-- The field of the object a pointer points to. -/
def LValue.arrow (p : Expr) (name : String) : LValue := .field (.deref p) name

/-- The variable an lvalue is part of, if it does not follow a pointer. -/
def LValue.root? : LValue → Option String
  | .var name => some name
  | .field base _ => base.root?
  | .index base _ => base.root?
  | .deref _ => none

/-- The negation of a condition, with negations pushed down to the comparisons. -/
def Cond.negate : Cond → Cond
  | .always => .never
  | .never => .always
  | .cmp op a b => .cmp op.negate a b
  | .not c => c
  | .and p q => .or p.negate q.negate
  | .or p q => .and p.negate q.negate

/-! ## Reads -/

mutual

/-- The lvalues an expression reads, from left to right; an lvalue comes before what its own
evaluation reads. -/
def Expr.reads : Expr → List LValue
  | .const _ | .null | .unknown | .unsupported _ => []
  | .read lv => lv :: lv.innerReads
  | .addrOf lv => lv.innerReads
  | .arith _ a b => a.reads ++ b.reads
  | .neg e => e.reads
  | .truth c => c.reads

/-- The lvalues read in order to find the location of an lvalue. -/
def LValue.innerReads : LValue → List LValue
  | .var _ => []
  | .field base _ => base.innerReads
  | .index base i => base.innerReads ++ i.reads
  | .deref p => p.reads

def Cond.reads : Cond → List LValue
  | .always | .never => []
  | .cmp _ a b => a.reads ++ b.reads
  | .not c => c.reads
  | .and p q => p.reads ++ q.reads
  | .or p q => p.reads ++ q.reads

end

/-! ## Text -/

mutual

def Expr.text : Expr → String
  | .const n => toString n
  | .read lv => lv.text
  | .addrOf lv => "&" ++ lv.text
  | .null => "NULL"
  | .unknown => "?"
  | .unsupported what => "<" ++ what ++ ">"
  | .arith op a b => "(" ++ a.text ++ " " ++ op.symbol ++ " " ++ b.text ++ ")"
  | .neg e => "-" ++ e.text
  | .truth c => "(" ++ c.text ++ ")"

def LValue.text : LValue → String
  | .var name => name
  | .field base name => base.text ++ "." ++ name
  | .index base i => base.text ++ "[" ++ i.text ++ "]"
  | .deref p => "*" ++ p.text

def Cond.text : Cond → String
  | .always => "1"
  | .never => "0"
  | .cmp op a b => a.text ++ " " ++ op.symbol ++ " " ++ b.text
  | .not c => "!(" ++ c.text ++ ")"
  | .and p q => "(" ++ p.text ++ " && " ++ q.text ++ ")"
  | .or p q => "(" ++ p.text ++ " || " ++ q.text ++ ")"

end

end StaticAnalysis
