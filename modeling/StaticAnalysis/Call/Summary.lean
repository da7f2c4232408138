import StaticAnalysis.Memory.Value

/-!
# Summaries of functions

The effects of a function that is analysed without its callers: what it may read and write outside
of itself, what it returns, and whether it returns at all.  Call sites apply the summary instead of
analysing the body.  A function that may do anything has the summary `unknown`.
-/

namespace StaticAnalysis

structure Summary where
  /-- Globals and cells of the caller that may be read. -/
  reads : SortedSet Cell
  /-- Cells that may be written, with the join of the written values. -/
  writes : SortedMap Cell Value
  /-- The join of the returned values. -/
  ret : Value
  returns : Bool
  /-- Anything may happen. -/
  anything : Bool
deriving DecidableEq

namespace Summary

/-- Nothing is read or written, and the function never returns. -/
def bottom : Summary := ⟨.empty, .empty, .bottom, false, false⟩

def unknown : Summary := ⟨.empty, .empty, .top, true, true⟩

def ofRead (c : Cell) : Summary := { bottom with reads := .singleton c }

def ofWrite (c : Cell) (v : Value) : Summary := { bottom with writes := .singleton c v }

def ofReturn (v : Value) : Summary := { bottom with ret := v, returns := true }

def le (s t : Summary) : Except Fault Bool := do
  if t.anything then return true
  if s.anything || (s.returns && !t.returns) then return false
  if !(← s.ret.le t.ret) then return false
  if !s.reads.subset t.reads then return false
  s.writes.entries.allM fun (c, v) =>
    match t.writes.get? c with
    | some w => v.le w
    | none => pure false

/-- Combine two summaries with an operation on values. -/
def merge (f : Value → Value → Except Fault Value) (s t : Summary) : Except Fault Summary := do
  if s.anything || t.anything then return unknown
  let writes ← s.writes.mergeM f t.writes
  return {
    reads := s.reads.union t.reads
    writes
    ret := ← f s.ret t.ret
    returns := s.returns || t.returns
    anything := false }

def join (s t : Summary) : Except Fault Summary := merge Value.join s t

def widen (s t : Summary) : Except Fault Summary := merge Value.widen s t

def text (s : Summary) : String :=
  if s.anything then "⊤"
  else
    let reads := ", ".intercalate (s.reads.toList.map Cell.text)
    let writes := ", ".intercalate (s.writes.entries.map fun (c, v) => c.text ++ " := " ++ v.text)
    "reads \x7b" ++ reads ++ "\x7d writes \x7b" ++ writes ++ "\x7d" ++
      (if s.returns then " returns " ++ s.ret.text else " never returns")

end Summary
end StaticAnalysis
