import StackVM.Proofs.Machine.Bounded
import StackVM.Proofs.Verify.Report.Order

/-! # Flagged instructions never succeed

Three kinds of findings are about instructions that no state of a machine can execute: a distance
that leads out of the program, a closure without room for its parameters, and a count that no stack
can supply. The machine checks the same bounds as the verifier, and it does so before anything that
depends on the values on the stack, so such an instruction always ends in a fault.
-/
namespace StackVM

namespace Finding

/-- The finding says that its instruction can never succeed. -/
def Flags : Finding → Prop
  | .targetOutOfRange _ _ | .invalidClosure _ _ _ | .countExceedsStack _ _ _ => True
  | _ => False

/-- The fault in which the instruction of a finding ends, whatever the state. A closure is checked
for its shape before its entry is. -/
inductive Foretells : Finding → Cause → Prop
  | target {pos : Nat} {distance : Int16} :
      Foretells (.targetOutOfRange pos distance) (.jumpOutOfRange distance)
  | entry {pos : Nat} {distance : Int16} {params slots : UInt8} :
      slots < params → Foretells (.targetOutOfRange pos distance) (.invalidClosure params slots)
  | shape {pos : Nat} {params slots : UInt8} :
      Foretells (.invalidClosure pos params slots) (.invalidClosure params slots)
  | count {pos count capacity : Nat} :
      Foretells (.countExceedsStack pos count capacity) .stackUnderflow

end Finding

namespace Exec
variable {α β : Type} {pos next n : Nat} {s : State} {f : Fault}

theorem bind_of_error {x : Exec α} (h : x s = .error f s) (g : α → Exec β) :
    (x >>= g) s = .error f s := by
  rw [bind_apply, h]

section Distances
variable {distance : Int16}
  (h : (relativeTarget? next distance).filter (· < s.machine.program.size) = none)
include h

theorem jumpTarget_fault :
    jumpTarget pos next distance s = .error ⟨pos, .jumpOutOfRange distance⟩ s := by
  simp only [jumpTarget, bind_apply, machine, h]
  rfl

/-- The target of a branch is checked before the value that decides. -/
theorem branchKind_fault (base : Base) (kind : Branch) :
    instr base pos next (kind.instr distance) s = .error ⟨pos, .jumpOutOfRange distance⟩ s := by
  cases kind with
  | always => exact bind_of_error (jumpTarget_fault h) _
  | ifTrue => exact bind_of_error (jumpTarget_fault h) _
  | ifFalse => exact bind_of_error (jumpTarget_fault h) _
  | handler => exact bind_of_error (jumpTarget_fault h) _

end Distances

theorem makeClosure_shape_fault {e : EntryPoint} (h : e.slots < e.params) :
    makeClosure pos next e s = .error ⟨pos, .invalidClosure e.params e.slots⟩ s := by
  rw [makeClosure, if_pos h]
  rfl

theorem makeClosure_entry_fault {e : EntryPoint} (hshape : ¬ e.slots < e.params)
    (h : (relativeTarget? next e.offset).filter (· < s.machine.program.size) = none) :
    makeClosure pos next e s = .error ⟨pos, .jumpOutOfRange e.offset⟩ s := by
  rw [makeClosure, if_neg hshape]
  exact bind_of_error (jumpTarget_fault h) _

section Counts
variable (h : s.context.sp < n)
include h

theorem top_fault : top pos n s = .error ⟨pos, .stackUnderflow⟩ s := if_pos h

theorem popN_fault : popN pos n s = .error ⟨pos, .stackUnderflow⟩ s :=
  bind_of_error (top_fault h) _

end Counts

theorem count_fault {i : Instr} {count : Nat} (hbuilt : Decoded.builtFrom? i = some count)
    (hcount : Capacity.stack < count) (hroom : s.context.sp ≤ Capacity.stack) (base : Base) :
    instr base pos next i s = .error ⟨pos, .stackUnderflow⟩ s := by
  have hfew : s.context.sp < count := Nat.lt_of_le_of_lt hroom hcount
  obtain ⟨op, x⟩ := i
  cases op with
  | makeArr =>
    cases hbuilt
    exact bind_of_error (popN_fault hfew) _
  | makeStr =>
    cases hbuilt
    exact bind_of_error (top_fault hfew) _
  | makeHash =>
    cases hbuilt
    rw [Nat.mul_comm] at hfew
    exact bind_of_error (popN_fault hfew) _
  | makeClosure =>
    cases hbuilt
    have hparams : x.params.toNat < 256 := x.params.toNat_lt
    simp only [Capacity.stack] at hcount
    omega
  | _ => cases hbuilt

end Exec

/-- What a flagged instruction does in a state of its program. -/
theorem Decoded.Finds.foretells {l : List (Nat × Instr)} {f : Finding} {s : State}
    (h : (Decoded.mk l s.machine.program.size).Finds f) (hflags : f.Flags)
    (hroom : s.context.sp ≤ Capacity.stack) (base : Base) :
    ∃ i cause, (f.site, i) ∈ l ∧ f.Foretells cause ∧
      Exec.instr base f.site (f.site + i.size) i s = .error ⟨f.site, cause⟩ s := by
  cases f with
  | targetOutOfRange pos distance =>
    obtain ⟨i, hmem, hrelative, htarget⟩ := h
    rcases Instr.relative?_eq_some_iff.mp hrelative with ⟨kind, rfl⟩ | ⟨params, slots, rfl⟩
    · exact ⟨_, _, hmem, .target, Exec.branchKind_fault htarget base kind⟩
    · by_cases hshape : slots < params
      · exact ⟨_, _, hmem, .entry hshape, Exec.makeClosure_shape_fault hshape⟩
      · exact ⟨_, _, hmem, .target, Exec.makeClosure_entry_fault hshape htarget⟩
  | invalidClosure pos params slots =>
    obtain ⟨offset, hmem, hshape⟩ := h
    exact ⟨_, _, hmem, .shape, Exec.makeClosure_shape_fault hshape⟩
  | countExceedsStack pos count capacity =>
    obtain ⟨i, hmem, hbuilt, rfl, hcount⟩ := h
    exact ⟨_, _, hmem, .count, Exec.count_fault hbuilt hcount hroom base⟩
  | _ => exact hflags.elim

/-- An instruction that the verifier reports for a distance out of the program, for a closure
without room for its parameters or for a count that no stack can supply can never succeed: on every
machine that holds the program and in every context that a host can have, it ends in a fault that
names it and changes nothing. -/
theorem flagged_never_succeeds {p : Program} {f : Finding} (hf : f ∈ p.verify) (hflags : f.Flags)
    {host : Host} {ctx : Context} (hctx : ctx.Reachable host) {m : Machine} (hm : m.program = p)
    (base : Base) (pending : List Pending) :
    ∃ i next cause, p.Contains f.site i next ∧ f.Foretells cause ∧
      Exec.instr base f.site next i ⟨m, ctx⟩ = .error ⟨f.site, cause⟩ ⟨m, ctx⟩ ∧
      Config.step host ⟨.run base f.site, pending, ⟨m, ctx⟩⟩ =
        some ⟨.exited (.error ⟨f.site, cause⟩), pending, ⟨m, ctx⟩⟩ := by
  subst hm
  cases hdecode : m.program.decodeAll with
  | error e =>
    rw [Program.verify, hdecode] at hf
    rw [List.mem_singleton.mp hf] at hflags
    exact hflags.elim
  | ok l =>
    have hlisting := Program.decodeAll_eq_ok_iff_listing.mp hdecode
    have hfinds := (Program.mem_verify_iff hdecode).mp hf
    obtain ⟨i, cause, hmem, hcause, hfault⟩ :=
      Decoded.Finds.foretells (s := ⟨m, ctx⟩) hfinds hflags hctx.bounded.stack base
    have hcontains := hlisting.contains_iff.mpr ⟨hmem, rfl⟩
    refine ⟨i, _, cause, hcontains, hcause, hfault, ?_⟩
    simp only [Config.step, Config.fetch, hcontains.2, hfault, Config.proceed]

/-- A branch out of the program that a false value does not take, and a hash of more values than a
stack holds. -/
def Machine.condemned : Machine where
  program := ⟨([⟨.pushFalse, ()⟩, ⟨.jumpTrue, (100 : Int16)⟩, ⟨.makeHash, (600 : UInt16)⟩,
    ⟨.halt, ()⟩] : List Instr).flatMap Instr.bytes |>.toArray⟩
  globals := .empty
  phase := .linking
  store := .empty

theorem flagged_never_succeeds_condemned :
    Machine.condemned.program.verify =
      [.targetOutOfRange 1 100, .countExceedsStack 4 1200 1024] ∧
    Context.Reachable Host.none ⟨[.bool false], [], []⟩ ∧
    ∀ f ∈ Machine.condemned.program.verify, f.Flags ∧ ∃ cause, f.Foretells cause ∧
      Config.step Host.none
          ⟨.run ⟨0, 0, false⟩ f.site, [], ⟨.condemned, ⟨[.bool false], [], []⟩⟩⟩ =
        some ⟨.exited (.error ⟨f.site, cause⟩), [], ⟨.condemned, ⟨[.bool false], [], []⟩⟩⟩ := by
  have hverify : Machine.condemned.program.verify =
      [.targetOutOfRange 1 100, .countExceedsStack 4 1200 1024] := by decide +kernel
  have hflags : ∀ f ∈ Machine.condemned.program.verify, f.Flags := by
    rw [hverify]
    simp [Finding.Flags]
  have hctx : Context.Reachable Host.none ⟨[.bool false], [], []⟩ :=
    .during .new (Config.trace_path Host.none 1 (Machine.condemned.runConfig .new 0)).reaches
  refine ⟨hverify, hctx, fun f hf => ⟨hflags f hf, ?_⟩⟩
  obtain ⟨_, _, cause, -, hcause, -, hstep⟩ :=
    flagged_never_succeeds hf (hflags f hf) hctx (m := .condemned) rfl ⟨0, 0, false⟩ []
  exact ⟨cause, hcause, hstep⟩

end StackVM
