import QueryEngine.Function.Basic

/-!
# A function that fails

`touchy` gives its argument back, except for two numbers: it refuses 13 and gives up on 666. It
serves to try out how failures spread through a plan.
-/

set_option autoImplicit false

namespace QueryEngine

def touchyKernel : Kernel where
  cost := .flop
  invoke
    | [.long 13] => .error (.error (.function "touchy" (.refused "unlucky")))
    | [.long 666] => .error (.crashed .aborted)
    | [v] => .ok v
    | _ => .error (.error (.function "touchy" (.refused "one argument expected")))

/-- Takes one argument of any type. -/
def touchy : FunctionFactory
  | [type] => some (.ofKernel ⟨"touchy", [type], type⟩ touchyKernel)
  | _ => none

end QueryEngine
