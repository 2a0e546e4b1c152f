import StackVM.Proofs.Machine.Atomic.Instructions
import StackVM.Proofs.Machine.Relay
import StackVM.Proofs.Machine.Trace

/-! # Instructions up to the choice of an implementation

An instruction ends where it began if it faults: the context, the globals, the program, the phase,
the local variables and the overload chains are the same as before it. This covers the choice of
an implementation for a call, up to the point where it comes to a native that sees the machine. A
pure native that declines the call is the only other code that runs in between. The built-in ones
do nothing then; one of the host may have changed arrays and hashes, which are the same otherwise.
-/
namespace StackVM

/-- The arrays and hashes that are in the first store are the same in the second. -/
def Store.Keeps (st st' : Store) : Prop :=
  (∀ (id : Nat) items, st.arrays[id]? = some items → st'.arrays[id]? = some items) ∧
    ∀ (id : Nat) entries, st.hashes[id]? = some entries → st'.hashes[id]? = some entries

theorem Store.Keeps.refl (st : Store) : st.Keeps st := ⟨fun _ _ h => h, fun _ _ h => h⟩

theorem Store.Keeps.trans {st st' st'' : Store} (h : st.Keeps st') (h' : st'.Keeps st'') :
    st.Keeps st'' :=
  ⟨fun id items hm => h'.1 id items (h.1 id items hm),
    fun id entries hm => h'.2 id entries (h.2 id entries hm)⟩

/-- A built-in native that declines does nothing. -/
theorem Builtin.body_declines {b : Builtin} {run : Store → List Value → PureAction}
    (hb : b.body = .pure run) {st st' : Store} {args : List Value} {why : Failure}
    (h : (run st args).perform st = (.failed why, st')) : st' = st := by
  cases b with
  | call => cases hb
  | _ =>
    cases hb
    simp only [onInts, concatStrs, concatArrs, equalValues, length, pushValue, throwValue] at h
    split at h <;> cases h <;> rfl

namespace Config

/-- If a pure native of the host is the next candidate and declines, it leaves the arrays and
hashes alone. -/
def DeclinesCleanly (host : Host) (c : Config) : Prop :=
  match c.control with
  | .dispatch (.native r) args =>
    ∀ key run why st, (c.state.machine.store.native r).code = .host key → host key = .pure run →
      (run c.state.machine.store args).perform c.state.machine.store = (.failed why, st) →
      c.state.machine.store.Keeps st
  | _ => True

/-- What is the same after an instruction that faulted: arrays and hashes only if the natives that
declined were clean. -/
structure Untouched (clean : Prop) (s s' : State) : Prop where
  context : s'.context = s.context
  globals : s'.machine.globals = s.machine.globals
  program : s'.machine.program = s.machine.program
  phase : s'.machine.phase = s.machine.phase
  fixed : s.machine.store.SameFixed s'.machine.store
  shared : clean → s.machine.store.Keeps s'.machine.store

variable {host : Host} {clean : Prop} {s s' : State} {base : Base} {pos next count : Nat}
  {callee : Function} {pending : List Pending}

theorem Untouched.refl (clean : Prop) (s : State) : Untouched clean s s :=
  ⟨rfl, rfl, rfl, rfl, ⟨rfl, rfl, rfl, rfl⟩, fun _ => .refl _⟩

theorem DeclinesCleanly.keeps {r : NativeRef} {args : List Value}
    (h : DeclinesCleanly host ⟨.dispatch (.native r) args, pending, s⟩)
    {run : Store → List Value → PureAction}
    (hbody : (s.machine.store.native r).code.body host = .pure run) {why : Failure}
    (hresult : ((run s.machine.store args).perform s.machine.store).1 = .failed why) :
    s.machine.store.Keeps ((run s.machine.store args).perform s.machine.store).2 := by
  cases hcode : (s.machine.store.native r).code with
  | host key =>
    rw [hcode] at hbody
    exact h key run why _ hcode hbody (Prod.ext hresult rfl)
  | builtin b =>
    rw [hcode] at hbody
    have hsame : ((run s.machine.store args).perform s.machine.store).2 = s.machine.store :=
      Builtin.body_declines hbody (Prod.ext hresult rfl)
    rw [hsame]
    exact .refl _

/-- A call waits for its dispatch, possibly behind chains that wait for one of their overloads. The
callee and its arguments are on the stack of `s`. -/
inductive Awaiting (s : State) : List Pending → Prop
  | call {base : Base} {pos next count : Nat} {callee : Function} {rest : List Pending} :
      count < s.context.sp → Awaiting s (.call base pos next count callee :: rest)
  | overloads {older : List Function} {missing : Bool} {args : List Value} {works : List Pending} :
      Awaiting s works → Awaiting s (.overloads older missing args :: works)

/-- What holds while an instruction that found the state `s` is executed, and when it ends. -/
def Fits (clean : Prop) (s : State) (c : Config) : Prop :=
  match c.control with
  | .run _ _ => True
  | .exited (.ok _) => True
  | .exited (.error _) => Untouched clean s c.state
  | .dispatch _ _ => Awaiting s c.pending ∧ Untouched clean s c.state
  | .dispatched (.ok (.settled (.ok _))) | .dispatched (.ok (.settled (.exception _))) =>
    Awaiting s c.pending ∧ c.state.context = s.context
  | .dispatched (.ok (.settled (.failed _))) | .dispatched (.ok (.enter _)) =>
    Awaiting s c.pending ∧ Untouched clean s c.state
  | .dispatched (.error _) => False

/-- Entering a closure checks the room for its frame before it takes anything. -/
theorem enter_atomic (hcount : count < s.context.sp) (r : ClosureRef) (s₀ : State) :
    Exec.Atomic s (Step.Settled s₀) (enter pos next count r) := by
  refine .read Exec.reads_store fun st _ => .read Exec.reads_requireFrame fun _ hframe => ?_
  have hdepth : s.context.depth < Capacity.frames := by
    unfold Exec.requireFrame at hframe
    by_contra hfull
    rw [if_neg hfull] at hframe
    cases hframe
  refine .of_succeeds (.bind (Exec.popN_apply hcount pos) (.bind rfl ?_))
  exact .pushFrame hdepth fun t => .pure trivial

end Config

end StackVM
