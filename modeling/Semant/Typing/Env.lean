import Semant.Ty

/-! Local names in nested scopes. A name means its innermost binding, the latest one where a scope
binds it more than once. -/

namespace Semant

structure Binding where
  ty : Ty
  isVar : Bool

/-- The bindings of one scope, the latest first. -/
abbrev Frame := List (String × Binding)

structure Env where
  current : Frame := []
  enclosing : List Frame := []

namespace Env

def frames (env : Env) : List Frame :=
  env.current :: env.enclosing

def lookup? (env : Env) (name : String) : Option Binding :=
  env.frames.findSome? (·.lookup name)

def define (env : Env) (name : String) (binding : Binding) : Env :=
  { env with current := (name, binding) :: env.current }

/-- Opens a scope. -/
def push (env : Env) : Env :=
  { current := [], enclosing := env.frames }

/-- Closes the innermost scope; the outermost stays. -/
def pop (env : Env) : Env :=
  match env.enclosing with
  | [] => env
  | frame :: rest => { current := frame, enclosing := rest }

end Env

end Semant
