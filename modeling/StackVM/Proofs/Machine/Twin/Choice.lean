import StackVM.Proofs.Machine.Twin.Instructions

/-! # Twins

Two configurations are twins if they do the same thing over the two floors of a shift, with the
same work pending above that of the floors. Natives that agree go on side by side, and so does the
choice of an implementation.
-/
namespace StackVM

namespace Shift
variable (σ : Shift)

/-- Two natives that ask the same of the machine, whatever they learn from states that are the same
above the floors. Nothing is said of a native that empties the context. -/
inductive Alike : Action → Action → Prop
  | done (result : MethodResult) : Alike (.done result) (.done result)
  | fault (f : Fault) : Alike (.fault f) (.fault f)
  | edit (e : Edit) {k k' : Value → Action} :
      (∀ v, Alike (k v) (k' v)) → Alike (.edit e k) (.edit e k')
  | call (callee : Value) (args : List Value) {k k' : Resume} :
      (∀ reply m r, Alike (k reply (σ.here m r)) (k' reply (σ.there m r))) →
      Alike (.call callee args k) (.call callee args k')
  | define (native : Native) {k k' : Nat → Action} :
      (∀ index, Alike (k index) (k' index)) → Alike (.define native k) (.define native k')
  | reset (a a' : Action) : Alike (.reset a) (.reset a')

def AlikeAfter (k k' : Resume) : Prop :=
  ∀ reply m r, σ.Alike (k reply (σ.here m r)) (k' reply (σ.there m r))

inductive Works : Pending → Pending → Prop
  | call {base base' : Base} (pos next count : Nat) (callee : Function) : σ.Bases base base' →
      Works (.call base pos next count callee) (.call base' pos next count callee)
  | overloads (rest : List Function) (missing : Bool) (args : List Value) :
      Works (.overloads rest missing args) (.overloads rest missing args)
  | native (args : List Value) {k k' : Resume} : σ.AlikeAfter k k' →
      Works (.native args k) (.native args k')
  | nested {base : Base} (height entry : Nat) {k k' : Resume} : σ.low.depth ≤ base.frames →
      σ.low.handlerCount ≤ base.handlers → σ.AlikeAfter k k' →
      Works (.nested base (height + σ.low.sp) entry k) (.nested base (height + σ.high.sp) entry k')

inductive Controls : Control → Control → Prop
  | run {base base' : Base} (ip : Nat) : σ.Bases base base' →
      Controls (.run base ip) (.run base' ip)
  | dispatch (callee : Function) (args : List Value) :
      Controls (.dispatch callee args) (.dispatch callee args)
  | dispatched (result : Except Fault Dispatch) :
      Controls (.dispatched result) (.dispatched result)
  | exited (result : Except Fault Exit) : Controls (.exited result) (.exited result)

/-- Two configurations that do the same over the floors, and over the work that is pending with
them. -/
inductive Twins (rest rest' : List Pending) : Config → Config → Prop
  | intro {control control' : Control} {p p' : List Pending} (m : Machine) (r : Context) :
      σ.Controls control control' → List.Forall₂ σ.Works p p' →
      Twins rest rest' ⟨control, p ++ rest, σ.here m r⟩ ⟨control', p' ++ rest', σ.there m r⟩

/-- The run goes on with a stack that would be too high over the second floor. -/
def Overfull (x : Config) : Prop :=
  (∃ base ip, x.control = .run base ip) ∧ x.state.context.sp ≤ Capacity.stack ∧
    Capacity.stack + σ.low.sp < x.state.context.sp + σ.high.sp

/-- The configurations are twins, or the second one has run out of room on the stack where the first
one has not. -/
def Matches (rest rest' : List Pending) (x y : Config) : Prop :=
  σ.Twins rest rest' x y ∨ σ.Overfull x ∧ ∃ f, y.control = .exited (.error f)

end Shift

/-- The only native that calls values sees nothing of the state but the names of functions. -/
theorem Builtin.callValue_alike (σ : Shift) (args : List Value) :
    σ.Alike (callValue args) (callValue args) := by
  cases args with
  | nil => exact .done _
  | cons callee args =>
    refine .call callee args fun reply m r => ?_
    cases reply with
    | error f => exact .fault f
    | ok result =>
      cases result with
      | ok | exception => exact .done _
      | failed why =>
        cases callee with
        | func f => exact .edit _ fun v => .done _
        | _ => exact .done _

namespace Config
variable {σ : Shift} {host : Host} {rest rest' p p' : List Pending} {m : Machine} {r : Context}
  {base base' : Base} {pos next : Nat}

theorem act_twins {a a' : Action} (ha : σ.Alike a a') (hp : List.Forall₂ σ.Works p p')
    (hcalm : ¬ a.Resets (σ.here m r)) :
    σ.Twins rest rest' (act (p ++ rest) a (σ.here m r)) (act (p' ++ rest') a' (σ.there m r)) := by
  induction ha generalizing m r with
  | done result => exact .intro m r (.dispatched _) hp
  | fault f => exact .intro m r (.dispatched _) hp
  | edit e _ ih => exact ih _ hcalm
  | call callee args hk ih =>
    cases callee with
    | func f => exact .intro m r (.dispatch f args) (.cons (.native args hk) hp)
    | _ => exact ih _ _ _ hcalm
  | define native _ ih => exact ih _ hcalm
  | reset => exact absurd trivial hcalm

theorem tryNext_twins (missing : Bool) (args : List Value) (hp : List.Forall₂ σ.Works p p')
    (m : Machine) (r : Context) (fs : List Function) :
    σ.Twins rest rest' (tryNext missing args (p ++ rest) (σ.here m r) fs)
      (tryNext missing args (p' ++ rest') (σ.there m r) fs) := by
  cases fs with
  | nil => exact .intro m r (.dispatched _) hp
  | cons f fs => exact .intro m r (.dispatch f args) (.cons (.overloads fs missing args) hp)

theorem dispatch_twins (callee : Function) (args : List Value) (hp : List.Forall₂ σ.Works p p')
    (hcalm : ¬ Resets host ⟨.dispatch callee args, p ++ rest, σ.here m r⟩)
    (hnative : ∀ ref run, callee = .native ref →
      (m.store.native ref).code.body host = .contextual run →
      σ.Alike (run (σ.here m r) args) (run (σ.there m r) args)) :
    σ.Twins rest rest' (dispatch host callee args (p ++ rest) (σ.here m r))
      (dispatch host callee args (p' ++ rest') (σ.there m r)) := by
  cases callee with
  | closure ref =>
    have hsame : (σ.there m r).machine.store = (σ.here m r).machine.store := rfl
    simp only [dispatch, hsame]
    split
    · exact .intro m r (.dispatched _) hp
    · exact .intro m r (.dispatched _) hp
  | chain ref => exact tryNext_twins false args hp m r _
  | native ref =>
    cases hbody : (m.store.native ref).code.body host with
    | pure run =>
      have hlow : dispatch host (.native ref) args (p ++ rest) (σ.here m r) =
          ⟨.dispatched (.ok (.settled ((run m.store args).perform m.store).1)), p ++ rest,
            σ.here { m with store := ((run m.store args).perform m.store).2 } r⟩ := by
        simp only [dispatch, Shift.here, hbody]
        rfl
      have hhigh : dispatch host (.native ref) args (p' ++ rest') (σ.there m r) =
          ⟨.dispatched (.ok (.settled ((run m.store args).perform m.store).1)), p' ++ rest',
            σ.there { m with store := ((run m.store args).perform m.store).2 } r⟩ := by
        simp only [dispatch, Shift.there, Machine.extend, hbody]
        rfl
      rw [hlow, hhigh]
      exact .intro _ r (.dispatched _) hp
    | contextual run =>
      have hlow : dispatch host (.native ref) args (p ++ rest) (σ.here m r) =
          act (p ++ rest) (run (σ.here m r) args) (σ.here m r) := by
        simp only [dispatch, Shift.here, hbody]
      have hhigh : dispatch host (.native ref) args (p' ++ rest') (σ.there m r) =
          act (p' ++ rest') (run (σ.there m r) args) (σ.there m r) := by
        simp only [dispatch, Shift.there, Machine.extend, hbody]
      rw [hlow, hhigh]
      exact act_twins (hnative ref run rfl hbody) hp fun hresets =>
        hcalm ⟨_, _, _, .start hbody, hresets⟩

theorem runClosure_twins (c : ClosureRef) (args : List Value) {k k' : Resume}
    (hk : σ.AlikeAfter k k') (hp : List.Forall₂ σ.Works p p')
    (hcalm : ¬ Resets host ⟨.dispatched (.ok (.enter c)), .native args k :: (p ++ rest),
      σ.here m r⟩) :
    σ.Twins rest rest' (runClosure c args k (p ++ rest) (σ.here m r))
      (runClosure c args k' (p' ++ rest') (σ.there m r)) := by
  have hdepth : (σ.there m r).context.depth = (σ.here m r).context.depth := by simp [σ.depth]
  have hcount : (σ.there m r).context.handlerCount = (σ.here m r).context.handlerCount := by
    simp [σ.handlerCount]
  have hstore : (σ.there m r).machine.store = (σ.here m r).machine.store := rfl
  unfold runClosure
  rw [hdepth, hcount, hstore]
  dsimp only
  generalize hclosure : (σ.here m r).machine.store.closure c = closure
  by_cases hroom : (σ.here m r).context.depth < Capacity.frames
  · obtain ⟨_, s, hok, -⟩ :=
      pushFrame_eq_ok hroom closure args closure.entry closure.entry (σ.here m r).context.sp
    have hlow := hok
    rw [σ.context_here, Context.sp_on] at hlow
    obtain ⟨m', r', rfl, hhigh, -⟩ :=
      Exec.pushFrame_mirrors closure args closure.entry r.sp m r () s (.zero σ r) hlow
    rw [σ.context_there, Context.sp_on, hhigh, hok]
    simp only [σ.context_here, Context.sp_on, Context.depth_on, Context.handlerCount_on]
    exact .intro m' r' (.run _ (.above (Nat.le_add_left _ _) (Nat.le_add_left _ _)))
      (.cons (.nested r.sp _ (Nat.le_add_left _ _) (Nat.le_add_left _ _) hk) hp)
  · rw [pushFrame_eq_error hroom, pushFrame_eq_error (hdepth ▸ hroom)]
    refine act_twins (hk _ _ _) hp fun hresets => hcalm ⟨_, _, _, .reply (.crowded ?_), hresets⟩
    rw [hclosure]
    exact pushFrame_eq_error hroom _ _ _ _ _

end Config
end StackVM
