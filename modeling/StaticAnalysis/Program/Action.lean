import StaticAnalysis.Program.Syntax

/-!
# Actions and statements

An `Action` is what one transition of a program does.  A `Stmt` is a structured program, made of
actions by sequence, choice and iteration; `Stmt.block` is a list of statements in order.
-/

namespace StaticAnalysis

/-- The effect of a transition. -/
inductive Action where
  | skip
  | assign (lv : LValue) (e : Expr)
  /-- The transition is taken only if the condition holds. -/
  | guard (c : Cond)
  | call (target : Option LValue) (callee : String) (args : List Expr)
  /-- Leave the function, with a value if there is one. -/
  | ret (e : Option Expr)
  | lock (mutex : String)
  | unlock (mutex : String)
  /-- Start a thread that runs a function. -/
  | spawn (function : String) (arg : Option Expr)
  /-- Wait for the threads that run a function. -/
  | join (function : String)
  /-- A condition whose truth is to be reported, with its number. -/
  | check (id : Nat) (c : Cond)
  | havoc (lv : LValue)
  | alloc (lv : LValue)
deriving DecidableEq

namespace Action

def checkName (id : Nat) : String := "check#" ++ toString id

def text : Action → String
  | .skip => "skip"
  | .assign lv e => lv.text ++ " = " ++ e.text
  | .guard c => "[" ++ c.text ++ "]"
  | .call target callee args =>
    let store := match target with
      | some lv => lv.text ++ " = "
      | none => ""
    store ++ callee ++ "(" ++ ", ".intercalate (args.map Expr.text) ++ ")"
  | .ret (some e) => "return " ++ e.text
  | .ret none => "return"
  | .lock mutex => "lock(" ++ mutex ++ ")"
  | .unlock mutex => "unlock(" ++ mutex ++ ")"
  | .spawn function _ => "spawn(" ++ function ++ ")"
  | .join function => "join(" ++ function ++ ")"
  | .check id c => checkName id ++ ": check(" ++ c.text ++ ")"
  | .havoc lv => lv.text ++ " = *"
  | .alloc lv => lv.text ++ " = malloc()"

end Action

/-- Structured statements. -/
inductive Stmt where
  /-- The block without statements. -/
  | done
  /-- A statement of a block and the rest of the block. -/
  | seq (s t : Stmt)
  | skip
  | act (a : Action)
  | check (c : Cond)
  | ret (e : Option Expr)
  | ite (c : Cond) (s t : Stmt)
  | loop (c : Cond) (body : Stmt)
deriving DecidableEq

namespace Stmt

def block (stmts : List Stmt) : Stmt := stmts.foldr .seq .done

end Stmt
end StaticAnalysis
