import StackVM.Machine.State
import StackVM.Value.Edit

/-! # Natives

A native is a function that the host provides. It is given as the tree of what it asks of the
machine, so it can do nothing that the machine does not offer. A pure native sees the store and
may create arrays and hashes and change them in any way. The others also see the machine and the
context; they may call values, define further natives and reset the context. Overload chains and
local variables are out of reach of all natives, but for what they define and call.
-/
namespace StackVM

inductive MethodResult
  | ok (v : Value)
  | failed (why : Failure)
  | exception (v : Value)
  deriving DecidableEq

/-- What a pure native does next. -/
inductive PureAction
  | done (result : MethodResult)
  | edit (e : Edit) (resume : Value → PureAction)

/-- What a native with access to the machine does next. -/
inductive Action
  | done (result : MethodResult)
  | fault (f : Fault)
  | edit (e : Edit) (resume : Value → Action)
  | call (callee : Value) (args : List Value)
      (resume : Except Fault MethodResult → State → Action)
  | define (native : Native) (resume : Nat → Action)
  | reset (resume : Action)

inductive NativeBody
  | pure (run : Store → List Value → PureAction)
  | contextual (run : State → List Value → Action)

def NativeBody.kind : NativeBody → String
  | .pure _ => "pure"
  | .contextual _ => "with_context"

/-- The natives that a host knows, by number. -/
abbrev Host := Nat → NativeBody

def Host.none : Host := fun _ => .pure fun _ _ => .done (.failed .argsMismatch)

def PureAction.perform (st : Store) : PureAction → MethodResult × Store
  | .done result => (result, st)
  | .edit e resume =>
    let (v, st) := st.apply e
    (resume v).perform st

/-- Add a native as an overload of the global with its name. -/
def Machine.defineNative (m : Machine) (native : Native) : Nat × Machine :=
  let (index, globals) := m.globals.resolve native.name
  let current := (globals.get? index).getD .undef
  let (f, store) := m.store.newNative native
  let (merged, store) := store.defineOverload current f native.name
  (index, { m with globals := globals.set index merged, store := store })

end StackVM
