import StaticAnalysis.Arith.Word

/-!
# Interval bounds

A bound is a word or one of the two infinities.  Arithmetic on finite bounds saturates at the ends
of the word range, and arithmetic with an infinity gives the infinity of the right sign.
-/

namespace StaticAnalysis

/-- An end of an interval. -/
inductive Bound where
  | negInf
  | finite (n : Int)
  | posInf
deriving DecidableEq, Repr

namespace Bound

/-- `-∞` is below every word, and every word is below `+∞`. -/
def le : Bound → Bound → Bool
  | .negInf, _ => true
  | _, .posInf => true
  | .finite a, .finite b => decide (a ≤ b)
  | _, _ => false

instance : LE Bound := ⟨fun a b => a.le b = true⟩

instance : LT Bound := ⟨fun a b => ¬ b ≤ a⟩

instance (a b : Bound) : Decidable (a ≤ b) := inferInstanceAs (Decidable (_ = true))

instance (a b : Bound) : Decidable (a < b) := inferInstanceAs (Decidable (¬ _))

instance : Min Bound := ⟨fun a b => if a ≤ b then a else b⟩

instance : Max Bound := ⟨fun a b => if a ≤ b then b else a⟩

def toFinite? : Bound → Option Int
  | .finite n => some n
  | _ => none

def sign : Bound → Int
  | .negInf => -1
  | .finite n => n.sign
  | .posInf => 1

/-- The infinity on the side of a sign; zero counts as positive. -/
def infinity (sign : Int) : Bound := if sign < 0 then .negInf else .posInf

/-- The nearest bound of an exact integer: integers beyond the word range are infinite. -/
def ofInt (x : Int) : Bound :=
  if Word.fits x then .finite x else if 0 < x then .posInf else .negInf

def neg : Bound → Bound
  | .negInf => .posInf
  | .finite n => .finite (Word.satNeg n)
  | .posInf => .negInf

def add : Bound → Bound → Bound
  | .finite a, .finite b => .finite (Word.satAdd a b)
  | .negInf, .posInf => .posInf
  | .posInf, .negInf => .posInf
  | .negInf, _ => .negInf
  | _, .negInf => .negInf
  | _, _ => .posInf

def sub (a b : Bound) : Bound := a.add b.neg

def mul : Bound → Bound → Bound
  | .finite a, .finite b => .finite (Word.satMul a b)
  | .finite 0, _ => .finite 0
  | _, .finite 0 => .finite 0
  | a, b => infinity (a.sign * b.sign)

/-- The values that truncating division of `a` by `b` can take at this corner; the quotient of the
least word by `-1` is beyond the range. -/
def quotients : Bound → Bound → List Bound
  | _, .finite 0 => []
  | .finite a, .finite b =>
    match Word.ofInt? (a.tdiv b) with
    | some q => [.finite q]
    | none => [.posInf]
  | .finite _, _ => [.finite 0]
  | a, .finite b => [infinity (a.sign * b.sign)]
  | a, b => [.finite 0, infinity (a.sign * b.sign)]

def text : Bound → String
  | .negInf => "-∞"
  | .finite n => toString n
  | .posInf => "+∞"

end Bound
end StaticAnalysis
