import StackVM.Machine.State

/-! # Steps of a run

A run executes instructions until it exits. It owns only what was pushed since it started: the
frames and handlers that were there before belong to the runs around it.
-/
namespace StackVM

/-- How many frames and handlers a run found, and whether it was started by a native. A nested run
ends when its first frame returns; the others end when they halt. -/
structure Base where
  frames : Nat
  handlers : Nat
  nested : Bool
  deriving DecidableEq, Inhabited

inductive Exit
  | halted (v : Value)
  | returned (v : Value)
  | raised (exception : Value)
  deriving DecidableEq

inductive Step
  | next
  | jump (target : Nat)
  | raise (exception : Value)
  | exit (e : Exit)
  | invoke (callee : Function) (args : List Value)
  deriving DecidableEq

end StackVM
