import StackVM.Machine.Stack
import StackVM.Machine.Step

/-! # Control flow

Jumps, returns, handlers and unwinding. A target has to lie inside the program. A return drops the
handlers that its frame installed; raising gives the exception to the newest handler of the run,
or takes down all frames of the run if it has none.
-/
namespace StackVM.Exec

def jumpTarget (pos next : Nat) (offset : Int16) : Exec Nat := do
  let size := (← machine).program.size
  match (relativeTarget? next offset).filter (· < size) with
  | some target => return target
  | none => fault pos (.jumpOutOfRange offset)

def jump (pos next : Nat) (offset : Int16) : Exec Step := do
  return .jump (← jumpTarget pos next offset)

def branch (pos next : Nat) (offset : Int16) (wanted : Bool) : Exec Step := do
  let target ← jumpTarget pos next offset
  let v ← pop pos
  if (← store).isTruthy v = wanted then return .jump target else return .next

def halt (base : Base) (pos : Nat) : Exec Step := do
  if base.nested then fault pos .unexpectedHalt
  else
    match (← context).stack with
    | v :: _ =>
      discard 1
      return .exit (.halted v)
    | [] => fault pos .haltWithEmptyStack

/-- The handlers that stay when a frame at `depth` returns: the run's own ones from inside that
frame go, the `owned` oldest are not the run's. -/
def dropHandlers (owned depth : Nat) : List Handler → List Handler
  | [] => []
  | h :: rest =>
    if owned < (h :: rest).length ∧ depth ≤ h.frames then dropHandlers owned depth rest
    else h :: rest

def ret (base : Base) (pos : Nat) : Exec Step := do
  let f ← frame pos
  let depth := (← context).depth
  if depth ≤ base.frames then fault pos .noActiveFrame
  else if (← context).sp ≤ f.savedSp then fault pos .stackUnderflow
  else
    let v ← pop pos
    modifyContext fun c =>
      { stack := keepOldest f.savedSp c.stack
        frames := c.frames.tail
        handlers := dropHandlers base.handlers depth c.handlers }
    if base.nested ∧ depth - 1 = base.frames then return .exit (.returned v)
    else
      push pos v
      return .jump f.returnIp

def tryStart (pos next : Nat) (offset : Int16) : Exec Step := do
  let catchIp ← jumpTarget pos next offset
  let c ← context
  pushHandler pos ⟨catchIp, c.depth, c.sp⟩
  return .next

/-- The newest handler, if it belongs to the run. -/
def ownHandler? (base : Base) (c : Context) : Option Handler :=
  if base.handlers < c.handlerCount then c.handlers.head? else none

def tryEnd (base : Base) (pos : Nat) : Exec Step := do
  let c ← context
  if (ownHandler? base c).any (·.frames == c.depth) then
    modifyContext fun c => { c with handlers := c.handlers.tail }
    return .next
  else fault pos .unbalancedTry

inductive Unwound
  | caught (ip : Nat)
  | uncaught (exception : Value)
  deriving DecidableEq

/-- Give an exception to the newest handler of the run, on top of the values that are left of those
below it, or end all calls of the run. -/
def unwind (base : Base) (pos : Nat) (exception : Value) : Exec Unwound := do
  let c ← context
  match ownHandler? base c with
  | some h =>
    if min h.sp c.sp < Capacity.stack then
      modifyContext fun c =>
        { stack := exception :: keepOldest h.sp c.stack
          frames := keepOldest h.frames c.frames
          handlers := c.handlers.tail }
      return .caught h.catchIp
    else fault pos .stackOverflow
  | none =>
    match oldest? base.frames c.frames with
    | some f =>
      modifyContext fun c =>
        { c with stack := keepOldest f.savedSp c.stack, frames := keepOldest base.frames c.frames }
    | none => pure ()
    return .uncaught exception

end StackVM.Exec
