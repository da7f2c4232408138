import StaticAnalysis.Program.Graph

/-!
# Abstract threads

A thread other than the main one is known by the thread that created it, the edge that did so and
the function it runs.  A *unique* thread stands for at most one concrete thread.

Threads are ordered by their creators first: a thread comes after every thread of smaller nesting.
-/

namespace StaticAnalysis

/-- An abstract thread. -/
inductive ThreadId where
  | main
  | created (parent : ThreadId) (site : Nat) (function : String) (unique : Bool)
deriving DecidableEq, Repr

namespace ThreadId

def isUnique : ThreadId → Bool
  | .main => true
  | .created _ _ _ unique => unique

def function? : ThreadId → Option String
  | .main => none
  | .created _ _ function _ => some function

/-- How many creations lead from the main thread to this one. -/
def depth : ThreadId → Nat
  | .main => 0
  | .created parent _ _ _ => parent.depth + 1

def text : ThreadId → String
  | .main => "main"
  | .created parent site function unique =>
    parent.text ++ "/" ++ function ++ "@" ++ edgeName site ++ (if unique then "" else "*")

/-- The thread that `ancestor` created on the way to a thread. -/
def childTowards (ancestor : ThreadId) : ThreadId → Option ThreadId
  | .main => none
  | .created parent site function unique =>
    if parent = ancestor then some (.created parent site function unique)
    else childTowards ancestor parent

/-! ## Order -/

/-- Compare two threads by creator, then site, function and uniqueness. -/
def cmp : ThreadId → ThreadId → Ordering
  | .main, .main => .eq
  | .main, .created .. => .lt
  | .created .., .main => .gt
  | .created p s f u, .created q t g v =>
    (p.cmp q).then ((compare s t).then ((compare f g).then (compare u v)))

instance : Ord ThreadId := ⟨cmp⟩

theorem cmp_self (a : ThreadId) : a.cmp a = .eq := by
  induction a with
  | main => rfl
  | created p s f u ih => simp [cmp, ih, Std.ReflCmp.compare_self]

theorem eq_of_cmp {a b : ThreadId} (h : a.cmp b = .eq) : a = b := by
  induction a generalizing b with
  | main => cases b <;> simp_all [cmp]
  | created p s f u ih =>
    cases b with
    | main => simp [cmp] at h
    | created q t g v =>
      simp only [cmp, Ordering.then_eq_eq, Std.compare_eq_iff_eq] at h
      simp [ih h.1, h.2]

theorem cmp_swap (a b : ThreadId) : a.cmp b = (b.cmp a).swap := by
  induction a generalizing b with
  | main => cases b <;> rfl
  | created p s f u ih =>
    cases b with
    | main => rfl
    | created q t g v =>
      simp only [cmp, Ordering.swap_then]
      rw [ih q, Std.OrientedOrd.eq_swap (a := s) (b := t),
        Std.OrientedOrd.eq_swap (a := f) (b := g), Std.OrientedOrd.eq_swap (a := u) (b := v)]

/-- Lexicographic steps keep transitivity of "not greater", when the first step is lawful. -/
theorem isLE_then_trans {p q r : Ordering} {x y z : Ordering} (hp : (p.then x).isLE)
    (hq : (q.then y).isLE) (hr : p.isLE → q.isLE → r.isLE)
    (hre : r = .eq → p = .eq ∧ q = .eq) (hz : x.isLE → y.isLE → z.isLE) : (r.then z).isLE := by
  cases p <;> cases q <;> cases r <;> simp_all [Ordering.then, Ordering.isLE]

instance : Std.OrientedOrd ThreadId := ⟨cmp_swap _ _⟩

instance : Std.LawfulEqOrd ThreadId where
  compare_self := cmp_self _
  eq_of_compare := eq_of_cmp

theorem label_isLE_trans {s t r : Nat} {f g h : String} {u v w : Bool}
    (hx : ((compare s t).then ((compare f g).then (compare u v))).isLE)
    (hy : ((compare t r).then ((compare g h).then (compare v w))).isLE) :
    ((compare s r).then ((compare f h).then (compare u w))).isLE := by
  have key : Std.TransCmp (compareLex (compareOn fun l : Nat × String × Bool => l.1)
      (compareLex (compareOn fun l => l.2.1) (compareOn fun l => l.2.2))) := inferInstance
  exact key.isLE_trans (a := (s, f, u)) (b := (t, g, v)) (c := (r, h, w)) hx hy

theorem cmp_isLE_trans {a b c : ThreadId} (hab : (a.cmp b).isLE) (hbc : (b.cmp c).isLE) :
    (a.cmp c).isLE := by
  induction a generalizing b c with
  | main => cases c <;> rfl
  | created p s f u ih =>
    cases b with
    | main => simp [cmp] at hab
    | created q t g v =>
      cases c with
      | main => simp [cmp] at hbc
      | created r k h w =>
        refine isLE_then_trans hab hbc (fun h1 h2 => ih h1 h2) (fun hr => ?_) label_isLE_trans
        have hpr := eq_of_cmp hr
        subst hpr
        have h1 : (p.cmp q).isLE := by
          cases hpq : p.cmp q <;> simp_all [cmp, Ordering.then, Ordering.isLE]
        have h2 : (q.cmp p).isLE := by
          cases hqp : q.cmp p <;> simp_all [cmp, Ordering.then, Ordering.isLE]
        rw [cmp_swap q p] at h2 ⊢
        cases hpq : p.cmp q with
        | lt => rw [hpq] at h2; exact absurd h2 (by decide)
        | eq => exact ⟨rfl, rfl⟩
        | gt => rw [hpq] at h1; exact absurd h1 (by decide)

instance : Std.TransOrd ThreadId := ⟨cmp_isLE_trans⟩

end ThreadId
end StaticAnalysis
