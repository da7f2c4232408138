import StaticAnalysis.Numeric.Bound
import StaticAnalysis.Order.Domain

/-!
# Intervals

An interval bounds an integer from both sides.  Division truncates toward zero and the remainder
has the sign of the dividend.  Programs are taken to run without overflow, so a bound that would
leave the word range stays at its end.

`mulPreimage` and `divPreimage` go backwards: they bound `x` when a bound on `x * c` or `x / c` is
known.
-/

namespace StaticAnalysis

/-- The integers between two bounds. -/
structure Interval where
  low : Bound
  high : Bound
deriving DecidableEq, Repr

namespace Interval

def bottom : Interval := ⟨.posInf, .negInf⟩

def top : Interval := ⟨.negInf, .posInf⟩

/-- The interval between two bounds; `bottom` if no integer is between them. -/
def between (low high : Bound) : Interval :=
  if high < low ∨ low = .posInf ∨ high = .negInf then bottom else ⟨low, high⟩

def range (low high : Int) : Interval := between (.finite low) (.finite high)

def constant (n : Int) : Interval := range n n

def atLeast (n : Int) : Interval := between (.finite n) .posInf

def atMost (n : Int) : Interval := between .negInf (.finite n)

variable (i j : Interval)

def isEmpty : Bool := decide (i.high < i.low)

def isTop : Bool := i.low == .negInf && i.high == .posInf

def contains (n : Int) : Bool :=
  !i.isEmpty && decide (i.low ≤ .finite n) && decide (.finite n ≤ i.high)

def excludesZero : Bool := !i.contains 0

/-- The only value of an interval, if it has just one. -/
def constant? : Option Int :=
  match i.low, i.high with
  | .finite l, .finite h => if l = h then some l else none
  | _, _ => none

/-! ## Order -/

def le : Bool :=
  i.isEmpty || (!j.isEmpty && decide (j.low ≤ i.low) && decide (i.high ≤ j.high))

def join : Interval :=
  if i.isEmpty then j
  else if j.isEmpty then i
  else ⟨min i.low j.low, max i.high j.high⟩

def meet : Interval := between (max i.low j.low) (min i.high j.high)

/-- A bound that moved outward becomes infinite. -/
def widen : Interval :=
  if i.isEmpty then j
  else if j.isEmpty then i
  else
    ⟨if j.low < i.low then .negInf else i.low, if i.high < j.high then .posInf else i.high⟩

/-- An infinite bound takes the other interval's bound. -/
def narrow : Interval :=
  if i.isEmpty || j.isEmpty then bottom
  else
    between (if i.low = .negInf then j.low else i.low) (if i.high = .posInf then j.high else i.high)

/-! ## Arithmetic -/

def neg (i : Interval) : Interval :=
  if i.isEmpty then bottom else between i.high.neg i.low.neg

def add (i j : Interval) : Interval :=
  if i.isEmpty || j.isEmpty then bottom else between (i.low.add j.low) (i.high.add j.high)

def sub : Interval := i.add j.neg

def span (corners : List Bound) : Interval :=
  match corners.min?, corners.max? with
  | some low, some high => between low high
  | _, _ => bottom

def mul (i j : Interval) : Interval :=
  if i.isEmpty || j.isEmpty then bottom
  else
    span [i.low.mul j.low, i.low.mul j.high, i.high.mul j.low, i.high.mul j.high]

def divSign (i divisor : Interval) : Interval :=
  if divisor.isEmpty then bottom
  else
    span ([i.low, i.high].flatMap fun a => [divisor.low, divisor.high].flatMap a.quotients)

/-- Truncating division.  Division by zero has no result, so zero is first taken out of the
divisor. -/
def div : Interval :=
  if i.isEmpty || j.isEmpty then bottom
  else (i.divSign (j.meet (atMost (-1)))).join (i.divSign (j.meet (atLeast 1)))

/-- Remainders of a dividend whose divisor has magnitude at most `limit + 1`. -/
def remWithin (limit : Bound) : Interval :=
  between (if .finite 0 ≤ i.low then .finite 0 else max i.low limit.neg)
    (if i.high ≤ .finite 0 then .finite 0 else min i.high limit)

/-- Remainder with the sign of the dividend, which is smaller in magnitude than the divisor. -/
def rem : Interval :=
  if i.isEmpty || j.isEmpty then bottom
  else
    let within (limit : Bound) : Interval :=
      match i.constant?, j.constant? with
      | some x, some c => if c = 0 then i.remWithin limit else constant (x.tmod c)
      | _, _ => i.remWithin limit
    match max j.low.neg j.high with
    | .finite m => if 0 < m then within (.finite (m - 1)) else bottom
    | _ => within .posInf

/-! ## Preimages -/

/-- A bound divided by a non-zero constant, rounded by `round`; infinities follow the sign. -/
def scaleDown (c : Int) (round : Int → Int) : Bound → Bound
  | .finite n => Bound.ofInt (round n)
  | b => if 0 < c then b else b.neg

/-- The integers `x` with `x * c` in the interval, for `c ≠ 0`. -/
def mulPreimage (c : Int) : Interval :=
  if i.isEmpty || c == 0 then top
  else
    let low := if 0 < c then i.low else i.high
    let high := if 0 < c then i.high else i.low
    between (scaleDown c (fun n => -(Int.fdiv (-n) c)) low)
      (scaleDown c (fun n => Int.fdiv n c) high)

/-- The integers `x` with `x / c` in a non-empty interval, for a positive `c`. -/
def divPreimagePos (c : Int) : Interval :=
  let low := match i.low with
    | .finite l =>
      if 0 < l then .finite (Word.satMul l c)
      else .finite (Word.satSub (Word.satMul l c) (c - 1))
    | b => b
  let high := match i.high with
    | .finite h =>
      if h < 0 then .finite (Word.satMul h c)
      else .finite (Word.satAdd (Word.satMul h c) (c - 1))
    | b => b
  between low high

/-- The integers `x` whose truncating quotient by `c` is in the interval, for `c ≠ 0`. -/
def divPreimage (c : Int) : Interval :=
  if i.isEmpty || c == 0 then top
  else if c < 0 then i.neg.divPreimagePos (Word.satNeg c)
  else i.divPreimagePos c

def text (i : Interval) : String :=
  if i.isEmpty then "⊥" else "[" ++ i.low.text ++ ", " ++ i.high.text ++ "]"

instance : Domain Interval where
  bottom := bottom
  top := top
  isBottom i := pure i.isEmpty
  isTop i := pure i.isTop
  le i j := pure (i.le j)
  join i j := pure (i.join j)
  meet i j := pure (i.meet j)
  widen i j := pure (i.widen j)
  narrow i j := pure (i.narrow j)

end Interval
end StaticAnalysis
