import StaticAnalysis.Arith.Word
import StaticAnalysis.Order.Domain

/-!
# Congruences

A congruence class `c + kℤ` records the stride of an integer: parity and step facts that an
interval cannot express.  Modulus `0` is a single integer and modulus `1` is every integer.  The
canonical form of a class with `k > 0` has `0 ≤ c < k`.

The meet of two classes is the Chinese remainder theorem: `c₁ + k₁ℤ` and `c₂ + k₂ℤ` meet exactly
when `c₁` and `c₂` agree modulo `gcd k₁ k₂`, and then in one class modulo `lcm k₁ k₂`.
-/

namespace StaticAnalysis

/-- A set of integers `c + kℤ`, or the empty set. -/
inductive Congruence where
  | bottom
  | residue (c k : Int)
deriving DecidableEq, Repr

namespace Congruence

def top : Congruence := .residue 0 1

def constant (c : Int) : Congruence := .residue c 0

/-- The canonical form of `c + kℤ`.  A constant or modulus that is not a word is forgotten. -/
def ofResidue (c k : Int) : Congruence :=
  let k := Int.ofNat k.natAbs
  if k = 0 then
    if Word.fits c then .residue c 0 else top
  else if k = 1 then top
  else if Word.fits (c % k) && Word.fits k then .residue (c % k) k
  else top

def isBottom : Congruence → Bool
  | .bottom => true
  | .residue _ _ => false

def isTop : Congruence → Bool
  | .residue _ k => k == 1
  | .bottom => false

/-- The only member of a class, if it has just one. -/
def constant? : Congruence → Option Int
  | .residue c k => if k = 0 then some c else none
  | .bottom => none

def contains : Congruence → Int → Bool
  | .bottom, _ => false
  | .residue c k, n => if k = 0 then c == n else (n - c) % k == 0

/-! ## Arithmetic -/

def gcd (a b : Int) : Int := Int.ofNat (Int.gcd a b)

def neg : Congruence → Congruence
  | .bottom => .bottom
  | .residue c k => ofResidue (-c) k

def add : Congruence → Congruence → Congruence
  | .residue c₁ k₁, .residue c₂ k₂ => ofResidue (c₁ + c₂) (gcd k₁ k₂)
  | _, _ => .bottom

def sub (a b : Congruence) : Congruence := a.add b.neg

/-- `(c₁ + k₁ℤ) * (c₂ + k₂ℤ)` lies in `c₁ * c₂ + gcd (c₁ * k₂, c₂ * k₁, k₁ * k₂) ℤ`. -/
def mul : Congruence → Congruence → Congruence
  | .residue c₁ k₁, .residue c₂ k₂ =>
    ofResidue (c₁ * c₂) (gcd (gcd (c₁ * k₂) (c₂ * k₁)) (k₁ * k₂))
  | _, _ => .bottom

/-- Truncating division.  The quotient of a class is known when the divisor divides all of it. -/
def div : Congruence → Congruence → Congruence
  | .bottom, _ => .bottom
  | .residue c k, d =>
    match d.constant? with
    | none => top
    | some d =>
      if d = 0 then .bottom
      else if k = 0 then ofResidue (c.tdiv d) 0
      else if c.tmod d = 0 ∧ k.tmod d = 0 then ofResidue (c.tdiv d) (k.tdiv d)
      else top

/-- Remainder with the sign of the dividend, which is congruent to the dividend modulo the
divisor. -/
def rem : Congruence → Congruence → Congruence
  | .bottom, _ => .bottom
  | .residue c k, d =>
    match d.constant? with
    | none => top
    | some m =>
      if m = 0 then .bottom
      else if k = 0 then ofResidue (c.tmod m) 0
      else
        let m := Int.ofNat m.natAbs
        if k.tmod m = 0 then
          -- A remainder divisible by `m` is smaller than `m`, so it is zero.
          if c.tmod m = 0 then constant 0 else ofResidue c m
        else top

/-- The integers whose remainder by `m` is `r`. -/
def remPreimage (r m : Int) : Congruence := if m = 0 then .bottom else ofResidue r m

/-! ## Order -/

def le : Congruence → Congruence → Bool
  | .bottom, _ => true
  | .residue _ _, .bottom => false
  | .residue c₁ k₁, .residue c₂ k₂ =>
    if k₂ = 0 then k₁ == 0 && c₁ == c₂
    else k₁.tmod k₂ == 0 && (c₁ - c₂).tmod k₂ == 0

def join : Congruence → Congruence → Congruence
  | .bottom, b => b
  | a, .bottom => a
  | .residue c₁ k₁, .residue c₂ k₂ => ofResidue c₁ (gcd (gcd k₁ k₂) (c₁ - c₂))

/-- Bezout coefficients: `s * a + t * b = gcd a b` for `(s, t) = bezout fuel a b`, when
`b < fuel`. -/
def bezout : Nat → Nat → Nat → Int × Int
  | 0, _, _ => (1, 0)
  | fuel + 1, a, b =>
    if b = 0 then (1, 0)
    else
      let (s, t) := bezout fuel b (a % b)
      (t, s - Int.ofNat (a / b) * t)

/-- The meet of two classes with positive moduli. -/
def meetResidues (c₁ k₁ c₂ k₂ : Int) : Congruence :=
  let g := gcd k₁ k₂
  if (c₂ - c₁).tmod g ≠ 0 then .bottom
  else
    let (s, _) := bezout (k₂.toNat + 1) k₁.toNat k₂.toNat
    -- `c₁ + k₁ * t` is in the second class when `k₁ * t` is `c₂ - c₁` modulo `k₂`.
    let t := ((c₂ - c₁).tdiv g * s) % (k₂.tdiv g)
    ofResidue (c₁ + k₁ * t) (k₁.tdiv g * k₂)

def meet : Congruence → Congruence → Congruence
  | .residue c₁ k₁, .residue c₂ k₂ =>
    if k₁ = 0 then if (residue c₂ k₂).contains c₁ then .residue c₁ k₁ else .bottom
    else if k₂ = 0 then if (residue c₁ k₁).contains c₂ then .residue c₂ k₂ else .bottom
    else meetResidues c₁ k₁ c₂ k₂
  | _, _ => .bottom

/-- Each strict step of an ascending chain divides the modulus, so the join is a widening. -/
def widen (a b : Congruence) : Congruence := a.join b

def narrow (a b : Congruence) : Congruence := if a.isTop then b else a

def text : Congruence → String
  | .bottom => "⊥"
  | .residue c k =>
    if k = 1 then "ℤ"
    else if k = 0 then "\x7b" ++ toString c ++ "\x7d"
    else toString c ++ " + " ++ toString k ++ "ℤ"

instance : Domain Congruence where
  bottom := bottom
  top := top
  isBottom a := pure a.isBottom
  isTop a := pure a.isTop
  le a b := pure (a.le b)
  join a b := pure (a.join b)
  meet a b := pure (a.meet b)
  widen a b := pure (a.widen b)
  narrow a b := pure (a.narrow b)

end Congruence
end StaticAnalysis
