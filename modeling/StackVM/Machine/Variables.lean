import StackVM.Machine.Stack
import StackVM.Machine.Step

/-! # Variables

Globals are addressed by index, locals by slot in the current frame, and captured variables by the
number of scopes to go up and a slot there. Reading a slot that nothing was stored in is a fault.
Defining a function in a slot makes it an overload of what the slot holds.
-/
namespace StackVM.Exec

/-- Take a function off the stack, or raise that something else was found. -/
def popFunction (pos : Nat) (define : Function → Exec Unit) : Exec Step := do
  match ← pop pos with
  | .func f =>
    define f
    return .next
  | found => return .raise (← create (·.invalidDefinition found))

def globalUndefined {α : Type} (pos index : Nat) : Exec α := do
  fault pos (.globalUndefined ((← machine).globals.describe index))

def fetchGlobal (pos index : Nat) : Exec Step := do
  match (← machine).globals.get? index with
  | some v =>
    if v.isUndef then globalUndefined pos index
    else
      push pos v
      return .next
  | none => globalUndefined pos index

def setGlobal (index : Nat) (v : Value) : Exec Unit :=
  modifyMachine fun m => { m with globals := m.globals.set index v }

def storeGlobal (pos index : Nat) : Exec Step := do
  if (← machine).globals.contains index then
    let v ← pop pos
    setGlobal index v
    return .next
  else globalUndefined pos index

def globalDefined (pos index : Nat) : Exec Step := do
  let v := (← machine).globals.get? index
  push pos (.bool (v.any fun v => !v.isUndef))
  return .next

def defGlobalFun (pos index : Nat) : Exec Step := do
  match (← machine).globals.get? index with
  | none => globalUndefined pos index
  | some current =>
    popFunction pos fun f => do
      let name := (← machine).globals.describe index
      let merged ← create (·.defineOverload current f name)
      setGlobal index merged

def setSlot (r : LocalsRef) (slot : UInt8) (v : Value) : Exec Unit :=
  create fun st => ((), st.setSlot r slot.toNat v)

def slot? (r : LocalsRef) (slot : UInt8) : Exec (Option Value) := do
  return ((← store).slots r)[slot.toNat]?

def storeSlot (pos : Nat) (r : LocalsRef) (slot : UInt8) : Exec Step := do
  let v ← pop pos
  setSlot r slot v
  return .next

def defSlotFun (pos : Nat) (r : LocalsRef) (slot : UInt8) (name : String) : Exec Step :=
  popFunction pos fun f => do
    let current := (← slot? r slot).getD .undef
    let merged ← create (·.defineOverload current f name)
    setSlot r slot merged

def localSlot (pos : Nat) (slot : UInt8) : Exec (LocalsRef × Value) := do
  let r := (← frame pos).locals
  match ← slot? r slot with
  | some v => return (r, v)
  | none => fault pos (.localOutOfRange slot)

def fetchLocal (pos : Nat) (slot : UInt8) : Exec Step := do
  let (_, v) ← localSlot pos slot
  if v.isUndef then fault pos (.localUndefined slot)
  else
    push pos v
    return .next

def storeLocal (pos : Nat) (slot : UInt8) : Exec Step := do
  let (r, _) ← localSlot pos slot
  storeSlot pos r slot

def localDefined (pos : Nat) (slot : UInt8) : Exec Step := do
  let (_, v) ← localSlot pos slot
  push pos (.bool !v.isUndef)
  return .next

def defLocalFun (pos : Nat) (slot : UInt8) : Exec Step := do
  let (r, _) ← localSlot pos slot
  defSlotFun pos r slot s!"local {slot.toNat}"

def upvarSlot (pos : Nat) (var : Upvar) : Exec (LocalsRef × Value) := do
  match (← frame pos).scope[var.depth.toNat]? with
  | none => fault pos (.upvarOutOfRange var)
  | some r =>
    match ← slot? r var.slot with
    | some v => return (r, v)
    | none => fault pos (.upvarOutOfRange var)

def fetchUpvar (pos : Nat) (var : Upvar) : Exec Step := do
  let (_, v) ← upvarSlot pos var
  if v.isUndef then fault pos (.upvarUndefined var)
  else
    push pos v
    return .next

def storeUpvar (pos : Nat) (var : Upvar) : Exec Step := do
  let (r, _) ← upvarSlot pos var
  storeSlot pos r var.slot

def upvarDefined (pos : Nat) (var : Upvar) : Exec Step := do
  let (_, v) ← upvarSlot pos var
  push pos (.bool !v.isUndef)
  return .next

def defUpvarFun (pos : Nat) (var : Upvar) : Exec Step := do
  let (r, _) ← upvarSlot pos var
  defSlotFun pos r var.slot s!"upvar {var.depth.toNat}:{var.slot.toNat}"

end StackVM.Exec
