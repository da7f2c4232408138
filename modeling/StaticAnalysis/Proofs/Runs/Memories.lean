import StaticAnalysis.Proofs.Memory.Pointers
import StaticAnalysis.Proofs.Runs.Semantics

/-!
# Runs of an activation in a memory

What the expressions, conditions and actions of a function do in a memory with pointers.  The
variables of an activation are objects; a designator denotes an object or the part of one at the end
of a path of fields.  There is no pointer arithmetic, pointers are compared for equality only, and
nothing is indexed.  A dereference of a number or of what holds nothing has no value, nor has a
division by zero.
-/

namespace StaticAnalysis

variable {ω : Type}

/-! ## Expressions -/

/-- A number is a word together with its negation; pointers are not restricted. -/
def Datum.Admissible : Datum ω → Prop
  | .number n => Word.Admissible n
  | _ => True

/-- A comparison of two data has an outcome.  Only numbers are ordered. -/
def CmpOp.Compares : CmpOp → Datum ω → Datum ω → Bool → Prop
  | .eq, d, d', b => b = true ↔ d = d'
  | .ne, d, d', b => b = true ↔ d ≠ d'
  | op, .number i, .number j, b => op.holds i j = b
  | _, _, _, _ => False

mutual

/-- An expression may have a value in a memory, given the objects of the variables. -/
def Expr.Computes (m : Memory ω) (vars : String → ω) : Expr → Datum ω → Prop
  | .const n, d => d = .number n ∧ Word.Admissible n
  | .null, d => d = .number 0
  | .unknown, d => ∃ n, d = .number n ∧ Word.Admissible n
  | .read lv, d => (∃ o path, lv.Denotes m vars o path ∧ m.content o path = some d) ∧ d.Admissible
  | .addrOf lv, d => ∃ o path, lv.Denotes m vars o path ∧ d = .pointer o path
  | .arith op a b, d =>
    ∃ i j n, a.Computes m vars (.number i) ∧ b.Computes m vars (.number j) ∧
      op.result? i j = some n ∧ d = .number n ∧ Word.Admissible n
  | .neg a, d => ∃ n, a.Computes m vars (.number n) ∧ d = .number (-n)
  | .truth c, d => ∃ b, c.Results m vars b ∧ d = .number (if b then 1 else 0)
  | .unsupported _, _ => False

/-- A designator may denote a part of an object. -/
def LValue.Denotes (m : Memory ω) (vars : String → ω) : LValue → ω → List String → Prop
  | .var x, o, path => o = vars x ∧ path = []
  | .field base f, o, path => ∃ outer, base.Denotes m vars o outer ∧ path = outer ++ [f]
  | .index _ _, _, _ => False
  | .deref e, o, path => e.Computes m vars (.pointer o path)

/-- A condition may have an outcome in a memory. -/
def Cond.Results (m : Memory ω) (vars : String → ω) : Cond → Bool → Prop
  | .always, b => b = true
  | .never, b => b = false
  | .cmp op x y, b => ∃ d d', x.Computes m vars d ∧ y.Computes m vars d' ∧ op.Compares d d' b
  | .not c, b => c.Results m vars !b
  | .and p q, true => p.Results m vars true ∧ q.Results m vars true
  | .and p q, false => p.Results m vars false ∨ q.Results m vars false
  | .or p q, true => p.Results m vars true ∨ q.Results m vars true
  | .or p q, false => p.Results m vars false ∧ q.Results m vars false

end

variable {m m' : Memory ω} {vars : String → ω}

lemma Expr.Computes.admissible {n : Int} :
    ∀ {e : Expr}, e.Computes m vars (.number n) → Word.Admissible n
  | .const _, ⟨h, hn⟩ => by cases h; exact hn
  | .null, h => by cases h; decide
  | .unknown, ⟨_, h, hn⟩ => by cases h; exact hn
  | .read _, ⟨_, hn⟩ => hn
  | .addrOf _, ⟨_, _, _, h⟩ => by cases h
  | .arith _ _ _, ⟨_, _, _, _, _, _, h, hn⟩ => by cases h; exact hn
  | .neg a, ⟨k, hk, h⟩ => by
    cases h
    have := hk.admissible
    exact ⟨this.2, by rw [Int.neg_neg]; exact this.1⟩
  | .truth _, ⟨b, _, h⟩ => by
    cases h
    cases b <;> decide
  | .unsupported _, h => absurd h id

variable {op : CmpOp} {d d' : Datum ω} {b : Bool}

lemma CmpOp.Compares.negate (h : op.Compares d d' b) : op.negate.Compares d d' !b := by
  cases op with
  | eq =>
    have h : b = true ↔ d = d' := h
    change (!b) = true ↔ ¬ d = d'
    rw [← h]
    simp
  | ne =>
    have h : b = true ↔ d ≠ d' := h
    change (!b) = true ↔ d = d'
    cases b <;> simp_all
  | _ =>
    cases d <;> cases d' <;> try exact absurd h id
    exact (CmpOp.holds_negate _ _ _).trans (congrArg _ h)

lemma CmpOp.Compares.swap (h : op.Compares d d' b) : op.swap.Compares d' d b := by
  cases op with
  | eq => exact Iff.trans h eq_comm
  | ne => exact Iff.trans h ne_comm
  | _ =>
    cases d <;> cases d' <;> try exact absurd h id
    exact (CmpOp.holds_swap _ _ _).trans h

/-! ## Actions -/

namespace Memory

/-- The memory after a datum was written to a part of an object. -/
structure Writes (m : Memory ω) (o : ω) (path : List String) (d : Datum ω) (m' : Memory ω) :
    Prop where
  base : m'.base = m.base
  written : m'.content o path = some d
  other : ∀ o' path', ¬ (o' = o ∧ path' = path) → m'.content o' path' = m.content o' path'

def write [DecidableEq ω] (m : Memory ω) (o : ω) (path : List String) (d : Datum ω) : Memory ω where
  base := m.base
  content o' path' := if o' = o ∧ path' = path then some d else m.content o' path'

lemma writes_write [DecidableEq ω] (m : Memory ω) (o : ω) (path : List String) (d : Datum ω) :
    m.Writes o path d (m.write o path d) where
  base := rfl
  written := if_pos ⟨rfl, rfl⟩
  other _ _ h := if_neg h

/-- What an action of an activation does to the memory.  A check does not stop a run, whatever its
outcome.  Structs are not assigned as a whole. -/
inductive Acts (env : Env) (vars : String → ω) : Action → Memory ω → Memory ω → Prop
  | skip {m : Memory ω} : Acts env vars .skip m m
  | assign {m m' : Memory ω} {lv : LValue} {e : Expr} {d : Datum ω} {o : ω} {path : List String}
    (htype : ∀ name, env.lvalueType? lv ≠ some (.struct name)) (he : e.Computes m vars d)
    (hlv : lv.Denotes m vars o path) (hwrite : m.Writes o path d m') :
    Acts env vars (.assign lv e) m m'
  | guard {m : Memory ω} {c : Cond} (h : c.Results m vars true) : Acts env vars (.guard c) m m
  | check {m : Memory ω} {id : Nat} {c : Cond} {b : Bool} (h : c.Results m vars b) :
    Acts env vars (.check id c) m m
  | ret {m : Memory ω} : Acts env vars (.ret none) m m
  | retValue {m m' : Memory ω} {e : Expr} {d : Datum ω} {o : ω} (he : e.Computes m vars d)
    (ho : m.cell o [] = State.retCell env.function) (hwrite : m.Writes o [] d m') :
    Acts env vars (.ret (some e)) m m'
  | havoc {m m' : Memory ω} {lv : LValue} {d : Datum ω} {o : ω} {path : List String}
    (hlv : lv.Denotes m vars o path) (hwrite : m.Writes o path d m') :
    Acts env vars (.havoc lv) m m'
  | alloc {m m' : Memory ω} {lv : LValue} {o fresh : ω} {path : List String}
    (hlv : lv.Denotes m vars o path) (hbase : m.base fresh = .heap env.edge)
    (hfresh : ∀ path, m.content fresh path = none)
      (hwrite : m.Writes o path (.pointer fresh []) m') :
    Acts env vars (.alloc lv) m m'

lemma Acts.base {env : Env} {a : Action} (h : Acts env vars a m m') : m'.base = m.base := by
  cases h <;> first | rfl | exact Writes.base ‹_›

end Memory
end StaticAnalysis
