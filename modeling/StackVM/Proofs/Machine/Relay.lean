import StackVM.Machine.Builtin
import StackVM.Proofs.Machine.Instructions.Steering

/-! # Natives that relay faults

A native that calls values learns of the faults of these calls, and may end with one of them. A
native relays faults if it ends with no other fault: the built-in natives do. Whatever a native
does to the store, the closures in it stay the same.
-/
namespace StackVM

/-- The faults that the native may still end with are known, or come from the calls it makes. -/
def Action.Relays (known : Fault → Prop) : Action → Prop
  | .done _ => True
  | .fault f => known f
  | .edit _ resume => ∀ v, (resume v).Relays known
  | .call _ _ resume => ∀ reply s, (resume reply s).Relays fun f => known f ∨ reply = .error f
  | .define _ resume => ∀ index, (resume index).Relays known
  | .reset resume => resume.Relays known

theorem Action.Relays.mono {known known' : Fault → Prop} {a : Action} (h : a.Relays known)
    (himp : ∀ f, known f → known' f) : a.Relays known' := by
  induction a generalizing known known' with
  | done => trivial
  | fault f => exact himp f h
  | edit e resume ih => exact fun v => ih v (h v) himp
  | call callee args resume ih =>
    intro reply s
    exact ih reply s (h reply s) fun f hf => hf.imp_left (himp f)
  | define native resume ih => exact fun index => ih index (h index) himp
  | reset resume ih => exact ih h himp

/-- What a native does once a call it made has been answered. -/
def RelaysAfter (known : Fault → Prop) (resume : Except Fault MethodResult → State → Action) :
    Prop :=
  ∀ reply s, (∀ f, reply = .error f → known f) → (resume reply s).Relays known

theorem Action.Relays.resume {known : Fault → Prop} {callee : Value} {args : List Value}
    {resume : Except Fault MethodResult → State → Action}
    (h : (Action.call callee args resume).Relays known) : RelaysAfter known resume := by
  intro reply s hreply
  refine (h reply s).mono fun f hf => ?_
  rcases hf with hf | hf
  · exact hf
  · exact hreply f hf

/-- The natives of the host make up no faults. -/
def Host.RelaysFaults (host : Host) : Prop :=
  ∀ key run, host key = .contextual run → ∀ s args, (run s args).Relays fun _ => False

theorem Builtin.callValue_relays (args : List Value) :
    (Builtin.callValue args).Relays fun _ => False := by
  cases args with
  | nil => trivial
  | cons callee args =>
    intro reply s
    cases reply with
    | error f => exact Or.inr rfl
    | ok result =>
      cases result with
      | ok v => trivial
      | exception v => trivial
      | failed why =>
        cases callee with
        | func f => exact fun _ => trivial
        | _ => trivial

theorem NativeCode.body_relays {host : Host} (hhost : host.RelaysFaults) {code : NativeCode}
    {run : State → List Value → Action} (h : code.body host = .contextual run) (s : State)
    (args : List Value) : (run s args).Relays fun _ => False := by
  cases code with
  | host key => exact hhost key run h s args
  | builtin b =>
    cases b with
    | call =>
      cases h
      exact Builtin.callValue_relays args
    | _ => cases h

/-- The parts of a store that no edit of a native reaches. -/
structure Store.SameFixed (st st' : Store) : Prop where
  locals : st'.locals = st.locals
  closures : st'.closures = st.closures
  chains : st'.chains = st.chains
  natives : st'.natives = st.natives

theorem Store.SameFixed.trans {st st' st'' : Store} (h : st.SameFixed st')
    (h' : st'.SameFixed st'') : st.SameFixed st'' :=
  ⟨h'.locals.trans h.locals, h'.closures.trans h.closures, h'.chains.trans h.chains,
    h'.natives.trans h.natives⟩

theorem Store.sameFixed_apply (st : Store) (e : Edit) : st.SameFixed (st.apply e).2 := by
  cases e <;> exact ⟨rfl, rfl, rfl, rfl⟩

theorem PureAction.sameFixed_perform (a : PureAction) (st : Store) :
    st.SameFixed (a.perform st).2 := by
  induction a generalizing st with
  | done result => exact ⟨rfl, rfl, rfl, rfl⟩
  | edit e resume ih => exact (st.sameFixed_apply e).trans (ih _ _)

theorem Machine.closures_defineNative (m : Machine) (native : Native) :
    (m.defineNative native).2.store.closures = m.store.closures :=
  Store.closures_defineOverload _ _ _ _

theorem Machine.skeleton_defineNative (m : Machine) (ctx : Context) (native : Native) :
    (State.mk (m.defineNative native).2 ctx).skeleton = (State.mk m ctx).skeleton := by
  unfold State.skeleton
  rw [m.closures_defineNative]
  rfl

end StackVM
