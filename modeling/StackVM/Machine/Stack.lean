import StackVM.Machine.State

/-! # Stacks of a context

The capacity of each stack is checked when something is pushed, and underflow when something is
taken. Nothing changes when a check fails.
-/
namespace StackVM

/-- The local variables of a call: the arguments, then undefined slots. -/
def initialLocals (args : List Value) (slots : UInt8) : Array Value :=
  ((args ++ List.replicate (slots.toNat - args.length) Value.undef).take slots.toNat).toArray

namespace Exec

def push (pos : Nat) (v : Value) : Exec Unit := fun s =>
  if s.context.sp < Capacity.stack then
    .ok () { s with context := { s.context with stack := v :: s.context.stack } }
  else .error ⟨pos, .stackOverflow⟩ s

/-- Push a new object. It is created only if there is room for it. -/
def pushNew (pos : Nat) (make : Store → Value × Store) : Exec Unit := fun s =>
  if s.context.sp < Capacity.stack then
    let (v, s) := s.withStore make
    .ok () { s with context := { s.context with stack := v :: s.context.stack } }
  else .error ⟨pos, .stackOverflow⟩ s

def pop (pos : Nat) : Exec Value := fun s =>
  match s.context.stack with
  | v :: rest => .ok v { s with context := { s.context with stack := rest } }
  | [] => .error ⟨pos, .stackUnderflow⟩ s

def peek (pos : Nat) : Exec Value := fun s =>
  match s.context.stack with
  | v :: _ => .ok v s
  | [] => .error ⟨pos, .stackUnderflow⟩ s

def require (pos n : Nat) : Exec Unit := fun s =>
  if s.context.sp < n then .error ⟨pos, .stackUnderflow⟩ s else .ok () s

/-- The newest `n` values, oldest of them first. -/
def top (pos n : Nat) : Exec (List Value) := fun s =>
  if s.context.sp < n then .error ⟨pos, .stackUnderflow⟩ s
  else .ok (s.context.stack.take n).reverse s

def discard (n : Nat) : Exec Unit := fun s =>
  .ok () { s with context := { s.context with stack := s.context.stack.drop n } }

def popN (pos n : Nat) : Exec (List Value) := do
  let values ← top pos n
  discard n
  return values

def frame (pos : Nat) : Exec Frame := fun s =>
  match s.context.frames with
  | f :: _ => .ok f s
  | [] => .error ⟨pos, .noActiveFrame⟩ s

def requireFrame (pos : Nat) : Exec Unit := fun s =>
  if s.context.depth < Capacity.frames then .ok () s else .error ⟨pos, .frameOverflow⟩ s

def pushFrame (pos : Nat) (c : Closure) (args : List Value) (returnIp savedSp : Nat) :
    Exec Unit := do
  requireFrame pos
  let slots ← create (·.newLocals (initialLocals args c.slots))
  modifyContext fun ctx => { ctx with frames := ⟨returnIp, savedSp, slots, c.scope⟩ :: ctx.frames }

def pushHandler (pos : Nat) (h : Handler) : Exec Unit := fun s =>
  if s.context.handlerCount < Capacity.handlers then
    .ok () { s with context := { s.context with handlers := h :: s.context.handlers } }
  else .error ⟨pos, .handlerOverflow⟩ s

end Exec
end StackVM
