import StaticAnalysis.Thread.ThreadId

/-!
# Calling contexts

A context tells apart the analysis instances of a function: the thread that runs it, and as much of
the history of calls as the policy keeps.  Every policy keeps a bounded history, so a program has
finitely many histories even when it recurses without bound.
-/

namespace StaticAnalysis

/-- How much of the call history distinguishes contexts. -/
inductive ContextPolicy where
  /-- Nothing of it. -/
  | insensitive
  /-- The last `n` call sites. -/
  | callString (n : Nat)
  /-- The last `n` call sites, where a function calling itself from one site repeatedly counts
  once. -/
  | callSite (n : Nat)
  /-- The whole chain of calls, until entering functions that are already on it has used up the
  gas. -/
  | gas (n : Nat)
deriving DecidableEq, Repr

def ContextPolicy.text : ContextPolicy → String
  | .insensitive => "insensitive"
  | .callString n => "call-string:" ++ toString n
  | .callSite n => "call-site:" ++ toString n
  | .gas n => "gas:" ++ toString n

/-- A function on a chain of calls, and the site it was called from unless the chain starts with
it. -/
structure Frame where
  site : Option Nat
  function : String
deriving DecidableEq, Repr

namespace Frame

instance : Ord Frame where
  compare := compareLex (compareOn site) (compareOn function)

instance : Std.TransOrd Frame :=
  inferInstanceAs (Std.TransCmp (compareLex (compareOn site) (compareOn function)))

instance : Std.LawfulEqOrd Frame :=
  Order.Reads.lawful (.lex .on .on) fun a b h => by cases a; cases b; simp_all

def text (f : Frame) : String :=
  match f.site with
  | some site => f.function ++ "@" ++ edgeName site
  | none => f.function

end Frame

/-- The part of a context that a policy keeps of the calls. -/
inductive History where
  | insensitive
  | callString (sites : List Nat)
  | callSite (sites : List Nat)
  | gas (chain : List Frame) (left : Nat)
  /-- All contexts of a function that ran out of gas. -/
  | exhausted
  /-- The function is analysed without its callers. -/
  | modular
deriving DecidableEq, Repr

namespace History

def rank : History → Nat
  | .insensitive => 0
  | .callString _ => 1
  | .callSite _ => 2
  | .gas _ _ => 3
  | .exhausted => 4
  | .modular => 5

def sites : History → List Nat
  | .callString sites | .callSite sites => sites
  | _ => []

def chain : History → List Frame
  | .gas chain _ => chain
  | _ => []

def left : History → Nat
  | .gas _ left => left
  | _ => 0

instance : Ord History where
  compare :=
    compareLex (compareOn rank)
      (compareLex (compareOn sites) (compareLex (compareOn chain) (compareOn left)))

instance : Std.TransOrd History :=
  inferInstanceAs (Std.TransCmp (compareLex (compareOn rank)
    (compareLex (compareOn sites) (compareLex (compareOn chain) (compareOn left)))))

instance : Std.LawfulEqOrd History :=
  Order.Reads.lawful (.lex .on <| .lex .on <| .lex .on .on)
    fun a b h => by cases a <;> cases b <;> simp_all [rank, sites, chain, left]

end History

/-- An analysis instance of a function. -/
structure Context where
  thread : ThreadId
  history : History
deriving DecidableEq, Repr

namespace Context

instance : Inhabited Context := ⟨⟨.main, .insensitive⟩⟩

instance : Ord Context where
  compare := compareLex (compareOn thread) (compareOn history)

instance : Std.TransOrd Context :=
  inferInstanceAs (Std.TransCmp (compareLex (compareOn thread) (compareOn history)))

instance : Std.LawfulEqOrd Context :=
  Order.Reads.lawful (.lex .on .on) fun a b h => by cases a; cases b; simp_all

/-- The context of functions analysed without their callers. -/
def modular : Context := ⟨.main, .modular⟩

def isModular (c : Context) : Bool := c.history == .modular

def text (c : Context) : String :=
  let history := match c.history with
    | .insensitive => "*"
    | .callString sites | .callSite sites => "<" ++ ",".intercalate (sites.map edgeName) ++ ">"
    | .gas chain left =>
      "→".intercalate (chain.map Frame.text) ++ " (gas " ++ toString left ++ ")"
    | .exhausted => "exhausted"
    | .modular => "modular"
  "[" ++ c.thread.text ++ "] " ++ history

end Context

namespace ContextPolicy

/-- The context of a function that a thread starts with. -/
def root (p : ContextPolicy) (thread : ThreadId) (function : String) : Context :=
  ⟨thread,
    match p with
    | .insensitive => .insensitive
    | .callString _ => .callString []
    | .callSite _ => .callSite []
    | .gas n => .gas [⟨none, function⟩] n⟩

def lastSites (n : Nat) (sites : List Nat) : List Nat := sites.drop (sites.length - n)

/-- The context of `callee`, called at `site` from function `caller` in context `c`.  Contexts of
another policy, and functions analysed without their callers, start over. -/
def callee (p : ContextPolicy) (c : Context) (site : Nat) (caller callee : String) :
    Except Fault Context :=
  match p, c.history with
  | .callString n, .callString sites =>
    pure { c with history := .callString (lastSites n (sites ++ [site])) }
  | .callSite n, .callSite sites =>
    if caller = callee ∧ sites.getLast? = some site then pure c
    else pure { c with history := .callSite (lastSites n (sites ++ [site])) }
  | .gas _, .gas chain left => do
    let reentry := chain.any fun f => f.function == callee
    if reentry && left == 0 then throw (.overflow .subtract)
    let left := if reentry then left - 1 else left
    if left = 0 then pure { c with history := .exhausted }
    else pure { c with history := .gas (chain ++ [⟨some site, callee⟩]) left }
  | .gas _, .exhausted => pure { c with history := .exhausted }
  | _, _ => pure (p.root c.thread callee)

end ContextPolicy
end StaticAnalysis
