import StackVM.Host.Probe
import StackVM.Proofs.Machine.Fatal.Choosing

/-! # Fatal faults

A fault leaves everything as it was before the instruction, but for the arrays and hashes that a
native changed before it declined a call. What a native that called the code does to the context
afterwards is no part of the instruction.
-/
namespace StackVM

/-- A call with an array of these items, for which the newest overload is a native and no frame is
left for the closure behind it. -/
def State.crowded (items : Array Value) : State where
  machine :=
    { program := ⟨#[Opcode.call.toByte, 1]⟩
      globals := .empty
      phase := .linking
      store :=
        { Store.empty with
          arrays := #[items]
          locals := #[#[]]
          closures := #[⟨0, 1, 0, [.any], []⟩]
          chains := #[⟨"f", [.closure ⟨0⟩, .native ⟨0⟩]⟩]
          natives := #[Probe.missing.native "f"] } }
  context :=
    ⟨[.func (.chain ⟨0⟩), .arr ⟨0⟩], List.replicate Capacity.frames ⟨0, 0, ⟨0⟩, []⟩, []⟩

namespace Config

/-- A point of that call, with the overloads that were not tried yet. -/
def crowded (items : Array Value) (control : Control) (untried : List Pending) : Config :=
  ⟨control, untried ++ [.call ⟨0, 0, false⟩ 0 2 1 (.chain ⟨0⟩)], .crowded items⟩

end Config

end StackVM
