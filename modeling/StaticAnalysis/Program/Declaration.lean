/-!
# Types and declarations

Types of variables as far as the analysis distinguishes them, declarations, and the kinds of
mutexes a program may lock.
-/

namespace StaticAnalysis

/-- Types of variables.  The length of an array has 32 bits. -/
inductive Ty where
  | int
  | ptr (target : Ty)
  | struct (name : String)
  | array (element : Ty) (length : Nat)
deriving DecidableEq, Repr

namespace Ty

def isPointer : Ty → Bool
  | .ptr _ => true
  | _ => false

def text : Ty → String
  | .int => "int"
  | .ptr target => target.text ++ "*"
  | .struct name => "struct " ++ name
  | .array element length => element.text ++ "[" ++ toString length ++ "]"

end Ty

/-- A declared name and its type. -/
structure VarDecl where
  name : String
  ty : Ty
deriving DecidableEq, Repr

/-- A global variable and its static initializers, by field path.  What is not initialized is
zero. -/
structure GlobalDecl where
  decl : VarDecl
  init : List (List String × Int)
deriving DecidableEq, Repr

/-- What a thread may do with a mutex it already holds. -/
inductive MutexKind where
  /-- Locking it again is an error. -/
  | plain
  /-- It counts how often it was locked. -/
  | recursive
  | errorCheck
  | spin
deriving DecidableEq, Repr

namespace MutexKind

instance : Inhabited MutexKind := ⟨.plain⟩

def ofName? (s : String) : Option MutexKind :=
  if s = "default" then some .plain
  else if s = "recursive" then some .recursive
  else if s = "errorcheck" then some .errorCheck
  else if s = "spin" then some .spin
  else none

def isRecursive : MutexKind → Bool
  | .recursive => true
  | _ => false

end MutexKind
end StaticAnalysis
