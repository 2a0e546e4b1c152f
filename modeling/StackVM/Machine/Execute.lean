import StackVM.Machine.Construct
import StackVM.Machine.Link
import StackVM.Machine.Variables

/-! # Execution of one instruction

`Exec.instr base pos next i` executes the instruction `i` that stands at `pos` and is followed by
`next`, in a run with the given base. A call only determines its callee here.
-/
namespace StackVM.Exec

def pushNext (pos : Nat) (v : Value) : Exec Step := do
  push pos v
  return .next

def dup (pos : Nat) : Exec Step := do
  pushNext pos (← peek pos)

def drop (pos : Nat) : Exec Step := do
  let _ ← pop pos
  return .next

def throw (pos : Nat) : Exec Step := do
  return .raise (← pop pos)

/-- Find the callee, which is on top, and its arguments below it. Both stay on the stack unless
the callee is not a function. -/
def call (pos count : Nat) : Exec Step := do
  require pos (count + 1)
  match ← peek pos with
  | .func f =>
    let values ← top pos (count + 1)
    return .invoke f (values.take count)
  | found =>
    let exception ← create (·.notCallable found)
    discard (count + 1)
    return .raise exception

def instr (base : Base) (pos next : Nat) : Instr → Exec Step
  | ⟨.halt, _⟩ => halt base pos
  | ⟨.pushNull, _⟩ => pushNext pos .null
  | ⟨.pushFalse, _⟩ => pushNext pos (.bool false)
  | ⟨.pushTrue, _⟩ => pushNext pos (.bool true)
  | ⟨.pushUndef, _⟩ => pushNext pos .undef
  | ⟨.pushInt, n⟩ => pushNext pos (.int n)
  | ⟨.pushText, s⟩ => pushNext pos (.str s)
  | ⟨.pushEmptyStr, _⟩ => pushNext pos (.str "")
  | ⟨.dup, _⟩ => dup pos
  | ⟨.pop, _⟩ => drop pos
  | ⟨.resolveGlobal, _⟩ => resolveGlobal pos
  | ⟨.patch, target⟩ => patch pos target
  | ⟨.initDone, _⟩ => initDone
  | ⟨.fetchGlobal, index⟩ => fetchGlobal pos index.toNat
  | ⟨.storeGlobal, index⟩ => storeGlobal pos index.toNat
  | ⟨.globalDefined, index⟩ => globalDefined pos index.toNat
  | ⟨.defGlobalFun, index⟩ => defGlobalFun pos index.toNat
  | ⟨.fetchLocal, slot⟩ => fetchLocal pos slot
  | ⟨.storeLocal, slot⟩ => storeLocal pos slot
  | ⟨.localDefined, slot⟩ => localDefined pos slot
  | ⟨.defLocalFun, slot⟩ => defLocalFun pos slot
  | ⟨.fetchUpvar, var⟩ => fetchUpvar pos var
  | ⟨.storeUpvar, var⟩ => storeUpvar pos var
  | ⟨.upvarDefined, var⟩ => upvarDefined pos var
  | ⟨.defUpvarFun, var⟩ => defUpvarFun pos var
  | ⟨.call, count⟩ => call pos count.toNat
  | ⟨.ret, _⟩ => ret base pos
  | ⟨.jump, offset⟩ => jump pos next offset
  | ⟨.jumpTrue, offset⟩ => branch pos next offset true
  | ⟨.jumpFalse, offset⟩ => branch pos next offset false
  | ⟨.makeArr, count⟩ => makeArr pos count.toNat
  | ⟨.makeStr, count⟩ => makeStr pos count.toNat
  | ⟨.makeHash, pairs⟩ => makeHash pos pairs.toNat
  | ⟨.makeClosure, e⟩ => makeClosure pos next e
  | ⟨.toStr, _⟩ => toStr pos
  | ⟨.toBool, _⟩ => toBool pos
  | ⟨.tryStart, offset⟩ => tryStart pos next offset
  | ⟨.tryEnd, _⟩ => tryEnd base pos
  | ⟨.throw, _⟩ => throw pos

end StackVM.Exec
