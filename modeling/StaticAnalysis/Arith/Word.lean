import StaticAnalysis.Arith.Fault

/-!
# Signed 64-bit arithmetic on exact integers

Program constants, bounds and coefficients are words: integers between `Word.least` and
`Word.greatest`.  They are kept as `Int`, and each use of arithmetic says what happens at the
edge of the range:

* `satAdd`, `satSub`, `satMul`, `satNeg` stop at the nearest end of the range;
* `add?`, `sub?`, `mul?` have no value outside the range;
* `add`, `sub`, `mul`, `neg` fault outside the range.
-/

namespace StaticAnalysis.Word

def least : Int := -9223372036854775808

def greatest : Int := 9223372036854775807

def fits (x : Int) : Bool := decide (least ≤ x) && decide (x ≤ greatest)

theorem fits_iff {x : Int} : fits x = true ↔ least ≤ x ∧ x ≤ greatest := by
  simp [fits]

def clamp (x : Int) : Int :=
  if x < least then least else if greatest < x then greatest else x

theorem fits_clamp (x : Int) : fits (clamp x) = true := by
  unfold clamp fits least greatest
  split
  · simp
  · split
    · simp
    · simp
      omega

theorem clamp_of_fits {x : Int} (h : fits x = true) : clamp x = x := by
  rw [fits_iff] at h
  unfold clamp
  rw [if_neg (by omega), if_neg (by omega)]

/-! ## Saturating operations -/

variable (a b : Int)

def satAdd : Int := clamp (a + b)

def satSub : Int := clamp (a - b)

def satMul : Int := clamp (a * b)

def satNeg : Int := clamp (-a)

/-! ## Partial operations -/

def ofInt? (x : Int) : Option Int := if fits x then some x else none

def add? : Option Int := ofInt? (a + b)

def sub? : Option Int := ofInt? (a - b)

def mul? : Option Int := ofInt? (a * b)

/-! ## Faulting operations -/

/-- The integer itself if it is a word, and otherwise the fault of operation `op`. -/
def exact (op : WordOp) (x : Int) : Except Fault Int :=
  if fits x then .ok x else .error (.overflow op)

def add (a b : Int) : Except Fault Int := exact .add (a + b)

def sub : Except Fault Int := exact .subtract (a - b)

def mul : Except Fault Int := exact .multiply (a * b)

def neg : Except Fault Int := exact .negate (-a)

end StaticAnalysis.Word
