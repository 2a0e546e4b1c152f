import StackVM.Proofs.Machine.Delivery.Exceptions
import StackVM.Proofs.Machine.Twin.Runs

/-! # Points of a call

A call lasts from its instruction until the run goes on after it, an exception has left it, or the
run has ended. Meanwhile something is pending above the work of the run, or the run is at a greater
depth than at the instruction. Natives that do not look at the stack cannot tell where on it they
are called.
-/
namespace StackVM

/-- States that differ in their values, and in the places of frames and handlers, only. -/
structure State.Similar (s s' : State) : Prop where
  machine : s'.machine = s.machine
  depth : s'.context.depth = s.context.depth
  handlerCount : s'.context.handlerCount = s.context.handlerCount

/-- Two natives that ask the same of the machine as long as they go on in similar states. -/
inductive Action.Agrees : Action → Action → Prop
  | done (result : MethodResult) : Agrees (.done result) (.done result)
  | fault (f : Fault) : Agrees (.fault f) (.fault f)
  | edit (e : Edit) {k k' : Value → Action} :
      (∀ v, Agrees (k v) (k' v)) → Agrees (.edit e k) (.edit e k')
  | call (callee : Value) (args : List Value) {k k' : Resume} :
      (∀ reply s s', s.Similar s' → Agrees (k reply s) (k' reply s')) →
      Agrees (.call callee args k) (.call callee args k')
  | define (native : Native) {k k' : Nat → Action} :
      (∀ index, Agrees (k index) (k' index)) → Agrees (.define native k) (.define native k')
  | reset {a a' : Action} : Agrees a a' → Agrees (.reset a) (.reset a')

/-- The natives of the host do not look at the values on the stack, nor at how many there are. -/
def Host.IgnoresStack (host : Host) : Prop :=
  ∀ key run, host key = .contextual run → ∀ s s', s.Similar s' →
    ∀ args, (run s args).Agrees (run s' args)

theorem Shift.similar {σ : Shift} (hadded : σ.added = #[]) (m : Machine) (r : Context) :
    (σ.here m r).Similar (σ.there m r) where
  machine := by rw [Shift.there, hadded]; exact m.extend_empty
  depth := by simp [σ.depth]
  handlerCount := by simp [σ.handlerCount]

theorem Action.Agrees.alike {σ : Shift} (hadded : σ.added = #[]) {a a' : Action}
    (h : a.Agrees a') : σ.Alike a a' := by
  induction h with
  | done result => exact .done result
  | fault f => exact .fault f
  | edit e _ ih => exact .edit e ih
  | call callee args _ ih =>
    exact .call callee args fun reply m r => ih reply _ _ (Shift.similar hadded m r)
  | define native _ ih => exact .define native ih
  | reset => exact .reset _ _

theorem NativeCode.body_alike {host : Host} (hhost : host.IgnoresStack) {σ : Shift}
    (hadded : σ.added = #[]) {code : NativeCode} {run : State → List Value → Action}
    (h : code.body host = .contextual run) (args : List Value) (m : Machine) (r : Context) :
    σ.Alike (run (σ.here m r) args) (run (σ.there m r) args) := by
  cases code with
  | host key => exact (hhost key run h _ _ (Shift.similar hadded m r) args).alike hadded
  | builtin b =>
    cases b with
    | call =>
      cases h
      exact Builtin.callValue_alike σ args
    | _ => cases h

section Layered
variable {kept : List Value} {ground : Mode → Context → Prop} {mode : Mode} {q : List Pending}
  {fs : List Frame} {hs : List Handler} {base : Base} {c : Context}

/-- What is on the ground while it is in control or waits is below everything above it. -/
theorem Layered.frames_suffix
    (hground : ∀ mode k, (∀ result, mode ≠ .ended result) → ground mode k → fs <:+ k.frames)
    (h : Layered kept ground mode q c) (hmode : q = [] → ∀ result, mode ≠ .ended result) :
    fs <:+ c.frames := by
  induction q generalizing mode c with
  | nil => exact hground mode c (hmode rfl) h
  | cons work q ih =>
    cases work with
    | nested base savedSp entry resume =>
      obtain ⟨k, fs, -, hfloor, -, -, hlayer, hbelow⟩ := layered_nested.mp h
      exact (ih hbelow nofun).trans (hlayer.suffix hfloor).1
    | call | overloads | native =>
      cases mode with
      | choosing => exact ih h nofun
      | running | ended => exact h.elim

theorem Layered.running_cases
    (hground : ∀ mode k, (∀ result, mode ≠ .ended result) → ground mode k → fs <:+ k.frames)
    (h : Layered kept ground (.running base) q c) :
    q = [] ∨ fs.length ≤ base.frames ∧ base.frames < c.depth := by
  cases q with
  | nil => exact .inl rfl
  | cons work q =>
    cases work with
    | call | overloads | native => exact h.elim
    | nested base' savedSp entry resume =>
      obtain ⟨k, fs', hnested, hfloor, -, -, ⟨rfl, hover⟩, hbelow⟩ := layered_nested.mp h
      have hle := (hbelow.frames_suffix hground nofun).length_le
      have hlt := hover.frames_suffix.length_le
      refine .inr ⟨hfloor.frames_eq ▸ hle, ?_⟩
      cases hfloor with
      | outer => cases hnested
      | nested => exact hlt

end Layered

namespace Config
variable {host : Host} {c d x y : Config}

/-- A run is in control. -/
def IsRunning (c : Config) : Prop := ∃ base ip, c.control = .run base ip

instance (c : Config) : Decidable c.IsRunning :=
  match h : c.control with
  | .run base ip => .isTrue ⟨base, ip, h⟩
  | .dispatch _ _ | .dispatched _ | .exited _ => .isFalse fun ⟨_, _, hrun⟩ => by
    cases h.symm.trans hrun

/-- The call that is made at the first configuration is not over at the second one. -/
def InCall (c x : Config) : Prop :=
  c.pending.length < x.pending.length ∨
    x.pending.length = c.pending.length ∧ x.IsRunning ∧
      c.state.context.depth < x.state.context.depth

instance (c x : Config) : Decidable (c.InCall x) := inferInstanceAs (Decidable (_ ∨ _))

/-- The points of the call that is made at the first configuration. -/
inductive During (host : Host) (c : Config) : Config → Prop
  | start : During host c c
  | step {x y : Config} : During host c x → Config.step host x = some y → c.InCall y →
      During host c y

/-- The call that is made at the first configuration is over with the step from the second one to
the third. -/
structure Ends (host : Host) (c z d : Config) : Prop where
  during : During host c z
  step : Config.step host z = some d
  past : ¬ c.InCall d

/-- An instruction looks at the value at this position with the next step, or takes it off the
stack. -/
def Touches (c : Config) (position : Nat) : Prop :=
  c.state.context.sp - c.reach ≤ position ∧ position < c.state.context.sp

instance (c : Config) (position : Nat) : Decidable (c.Touches position) :=
  inferInstanceAs (Decidable (_ ∧ _))

/-- The next step neither halts the run nor ends it with a fault, no native empties the context, and
no value is used below the first frame above this depth. -/
structure Tame (host : Host) (Uses : Config → Nat → Prop) (depth : Nat) (c : Config) : Prop where
  calm : ¬ c.Resets host
  sound : ∀ d, step host c = some d → ∀ f, d.control ≠ .exited (.error f)
  going : ∀ d, step host c = some d → ∀ v, d.control ≠ .exited (.ok (.halted v))
  above : ∀ f, oldest? depth c.state.context.frames = some f → ∀ p < f.savedSp, ¬ Uses c p

theorem not_inCall (hpending : x.pending = c.pending)
    (hdepth : x.state.context.depth ≤ c.state.context.depth) : ¬ c.InCall x := by
  rintro (hlt | ⟨-, -, hlt⟩)
  · rw [hpending] at hlt
    exact Nat.lt_irrefl _ hlt
  · exact Nat.not_lt_of_le hdepth hlt

theorem During.reaches (h : During host c x) : c.Reaches host x := by
  induction h with
  | start => exact .refl host c
  | step _ hstep _ ih => exact Relation.ReflTransGen.tail ih hstep

theorem During.sp_le (h : During host c x) (hroom : c.state.context.sp ≤ Capacity.stack) :
    x.state.context.sp ≤ Capacity.stack :=
  h.reaches.sp_le hroom

/-- The call goes on with the step. -/
def Continues (host : Host) (c x y : Config) : Prop := step host x = some y ∧ c.InCall y

theorem During.continues (h : During host c x) :
    Relation.ReflTransGen (Continues host c) c x := by
  induction h with
  | start => exact .refl
  | step _ hstep hin ih => exact ih.tail ⟨hstep, hin⟩

theorem Ends.eq_of_continues {z d : Config} (h : Ends host c z d)
    (hx : Relation.ReflTransGen (Continues host c) z x) : x = z := by
  rcases hx.cases_head with rfl | ⟨y, ⟨hstep, hin⟩, -⟩
  · rfl
  · cases hstep.symm.trans h.step
    exact absurd hin h.past

theorem Ends.continues {z d : Config} (h : Ends host c z d) (hx : During host c x) :
    Relation.ReflTransGen (Continues host c) x z := by
  have hunique : Relator.RightUnique (Continues host c) := fun _ _ _ hy hy' =>
    Option.some.inj (hy.1.symm.trans hy'.1)
  rcases Relation.ReflTransGen.total_of_right_unique hunique hx.continues h.during.continues with
    hxz | hzx
  · exact hxz
  · rw [h.eq_of_continues hzx]

theorem Ends.unique {z z' d d' : Config} (h : Ends host c z d) (h' : Ends host c z' d') :
    z = z' ∧ d = d' := by
  obtain rfl := h'.eq_of_continues (h.continues h'.during)
  exact ⟨rfl, Option.some.inj (h.step.symm.trans h'.step)⟩

end Config
end StackVM
