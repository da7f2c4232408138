/-!
# Enabled integer domains

Which of the two integer domains a function is analysed with.
-/

namespace StaticAnalysis

/-- A choice among the integer domains. -/
structure DomainSet where
  interval : Bool
  congruence : Bool
deriving DecidableEq, Repr

namespace DomainSet

def empty : DomainSet := ⟨false, false⟩

def intervals : DomainSet := ⟨true, false⟩

variable (d e : DomainSet)

def isEmpty : Bool := !d.interval && !d.congruence

/-- Whether every domain of `d` is also in `e`. -/
def isSubset : Bool :=
  (!d.interval || e.interval) && (!d.congruence || e.congruence)

def union : DomainSet :=
  ⟨d.interval || e.interval, d.congruence || e.congruence⟩

def text : String :=
  ",".intercalate
    ((if d.interval then ["interval"] else []) ++ (if d.congruence then ["congruence"] else []))

end DomainSet
end StaticAnalysis
