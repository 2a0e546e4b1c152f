import StackVM.Code.Program
import StackVM.Machine.Capacity
import StackVM.Machine.Fault
import StackVM.Machine.Globals
import StackVM.Value.Overload

/-! # Machine and context

A machine owns what all runs share: the program, the globals, the store and the phase of linking.
A context is one thread of control: a value stack, the active calls and the installed handlers,
each with its newest entry first. Instructions are computations on both; a fault keeps the state
in which it arose.
-/
namespace StackVM

/-- Where a machine is in the cycle of loading, linking and running. -/
inductive Phase
  | linking
  | ready
  | running
  deriving DecidableEq, Inhabited

def Phase.name : Phase → String
  | .linking => "Linking"
  | .ready => "Ready"
  | .running => "Running"

structure Machine where
  program : Program
  globals : Globals
  phase : Phase
  store : Store
  deriving DecidableEq, Inhabited

/-- One active call of a closure. -/
structure Frame where
  returnIp : Nat
  /-- The stack height below the callee and its arguments. -/
  savedSp : Nat
  locals : LocalsRef
  scope : List LocalsRef
  deriving DecidableEq, Inhabited

/-- An installed exception handler, with the frame depth and stack height of its installation. -/
structure Handler where
  catchIp : Nat
  frames : Nat
  sp : Nat
  deriving DecidableEq, Inhabited

structure Context where
  stack : List Value
  frames : List Frame
  handlers : List Handler
  deriving DecidableEq, Inhabited

namespace Context

def new : Context := ⟨[], [], []⟩

def sp (c : Context) : Nat := c.stack.length

def depth (c : Context) : Nat := c.frames.length

def handlerCount (c : Context) : Nat := c.handlers.length

end Context

structure State where
  machine : Machine
  context : Context
  deriving DecidableEq, Inhabited

def State.withStore {α : Type} (s : State) (f : Store → α × Store) : α × State :=
  match s with
  | ⟨⟨program, globals, phase, store⟩, ctx⟩ =>
    let (a, store) := f store
    (a, ⟨⟨program, globals, phase, store⟩, ctx⟩)

/-- The oldest `n` entries of a list that has its newest entry first. -/
def keepOldest {α : Type} (n : Nat) (xs : List α) : List α := xs.drop (xs.length - n)

/-- The entry that has exactly `n` older ones. -/
def oldest? {α : Type} (n : Nat) (xs : List α) : Option α := xs.reverse[n]?

/-- A computation of the machine on a context. -/
abbrev Exec := EStateM Fault State

namespace Exec

theorem pure_apply {α : Type} (a : α) (s : State) : (pure a : Exec α) s = .ok a s := rfl

theorem bind_apply {α β : Type} (x : Exec α) (f : α → Exec β) (s : State) :
    (x >>= f) s = match x s with
      | .ok a s => f a s
      | .error e s => .error e s := by
  simp only [bind, EStateM.bind]
  cases x s <;> rfl

def fault {α : Type} (pos : Nat) (cause : Cause) : Exec α := fun s => .error ⟨pos, cause⟩ s

def context : Exec Context := fun s => .ok s.context s

def machine : Exec Machine := fun s => .ok s.machine s

def store : Exec Store := fun s => .ok s.machine.store s

def modifyContext (f : Context → Context) : Exec Unit := fun s =>
  .ok () { s with context := f s.context }

def modifyMachine (f : Machine → Machine) : Exec Unit := fun s =>
  .ok () { s with machine := f s.machine }

def create {α : Type} (f : Store → α × Store) : Exec α := fun s =>
  let (a, s) := s.withStore f
  .ok a s

end Exec
end StackVM
