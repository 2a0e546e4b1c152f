import StackVM.Proofs.Machine.Blame.Fetching

/-! # Faults and the choice of an implementation

With the built-in natives, the work that a choice of an implementation leaves pending is work that
passes faults on. The end of a call can only fail as its instruction does.
-/
namespace StackVM
namespace Config
variable {c d : Config} {cs : List Config} {ip pos next count : Nat} {base : Base}
  {p : List Pending} {s : State} {f : Fault}

/-- The step leaves a choice open, or has made it, with these works waiting for it. -/
def Unfolds (p : List Pending) (d : Config) : Prop :=
  ∃ works, d.pending = works ++ p ∧ d.control.IsOpen ∧ ∀ w ∈ works, w.IsPassive ∧ w.AwaitsCall

theorem Unfolds.here {control : Control} (h : control.IsOpen) : Unfolds p ⟨control, p, s⟩ :=
  ⟨[], rfl, h, by simp⟩

theorem unfolds_callValue (p : List Pending) (args : List Value) (s : State) :
    Unfolds p (act p (Builtin.callValue args) s) := by
  cases args with
  | nil => exact .here trivial
  | cons callee args =>
    cases callee with
    | func f =>
      exact ⟨[.native args _], rfl, trivial, List.forall_mem_singleton.mpr ⟨trivial, f, rfl⟩⟩
    | _ => exact .here trivial

theorem unfolds_tryNext (missing : Bool) (args : List Value) (p : List Pending) (s : State)
    (fs : List Function) : Unfolds p (tryNext missing args p s fs) := by
  cases fs with
  | nil => exact .here trivial
  | cons f fs =>
    exact ⟨[.overloads fs missing args], rfl, trivial,
      List.forall_mem_singleton.mpr ⟨trivial, trivial⟩⟩

theorem unfolds_dispatch (callee : Function) (args : List Value) (p : List Pending) (s : State) :
    Unfolds p (dispatch Host.none callee args p s) := by
  cases callee with
  | closure r =>
    unfold dispatch
    dsimp only
    split <;> exact .here trivial
  | chain r => exact unfolds_tryNext false args p s _
  | native r =>
    unfold dispatch
    dsimp only
    split
    next => exact .here trivial
    next run hrun =>
      rw [NativeCode.body_none hrun]
      exact unfolds_callValue p args s

theorem unfolds_afterCall (f : Function) (result : MethodResult) (p : List Pending) (s : State) :
    Unfolds p (act p (Builtin.afterCall (.func f) (.ok result) s) s) := by
  rw [act_afterCall]
  exact .here trivial

theorem deliver_passive {chosen : Dispatch} {w : Pending} (hw : w.IsPassive) (hcall : w.AwaitsCall)
    (h : deliver (.ok chosen) w p s = some d) :
    (Unfolds p d ∧ ∀ r, ¬ Crowded ⟨.dispatched (.ok chosen), w :: p, s⟩ r) ∨
    ((∃ base ip savedSp f, d.control = .run base ip ∧
      d.pending = .nested base savedSp ip (Builtin.afterCall (.func f)) :: p) ∧
      ∀ r, ¬ Crowded ⟨.dispatched (.ok chosen), w :: p, s⟩ r) ∨
    ∃ r, Crowded ⟨.dispatched (.ok chosen), w :: p, s⟩ r ∧ d.pending = p ∧
      d.control = .dispatched (.error ⟨(s.machine.store.closure r).entry, .frameOverflow⟩) := by
  cases w with
  | call | nested => exact hw.elim
  | overloads older missing args =>
    refine .inl ⟨?_, fun r hr => by simpa using hr.2.1⟩
    unfold deliver at h
    split at h
    next => cases h; exact unfolds_tryNext true _ p s _
    next => cases h; exact unfolds_tryNext _ _ p s _
    next => cases h; exact .here trivial
    all_goals contradiction
  | native args resume =>
    obtain ⟨f, rfl⟩ := hcall
    cases chosen with
    | settled result =>
      cases h
      exact .inl ⟨unfolds_afterCall f result p s, fun r hr => by simpa using hr.1⟩
    | enter r =>
      cases h
      right
      unfold runClosure
      dsimp only
      by_cases hdepth : s.context.depth < Capacity.frames
      · obtain ⟨_, _, hpush, -, -⟩ := pushFrame_eq_ok hdepth (s.machine.store.closure r) args
          (s.machine.store.closure r).entry (s.machine.store.closure r).entry s.context.sp
        rw [hpush]
        exact .inl ⟨⟨_, _, _, f, rfl, rfl⟩, fun _ hr => Nat.not_le_of_lt hdepth hr.2.2⟩
      · rw [pushFrame_eq_error hdepth]
        exact .inr ⟨r, ⟨rfl, ⟨args, _, p, rfl⟩, Nat.le_of_not_lt hdepth⟩, rfl, rfl⟩

theorem finishCall_names (callee : Function) (chosen : Dispatch) :
    Exec.Names pos (finishCall pos next count callee chosen) := by
  cases chosen with
  | enter r =>
    apply Exec.store_safe.names.bind
    intro st
    apply Exec.requireFrame_safe.names.bind
    intro _
    apply (Exec.popN_safe (count + 1)).names.bind
    intro values
    apply Exec.context_safe.names.bind
    intro c
    exact (Exec.pushFrame_safe fun _ _ h => h).names.bind fun _ => .pure _
  | settled result =>
    cases result with
    | ok v =>
      exact (Exec.discard_safe (count + 1)).names.bind fun _ =>
        (Exec.push_safe v).names.bind fun _ => .pure _
    | exception v => exact (Exec.discard_safe (count + 1)).names.bind fun _ => .pure _
    | failed why =>
      exact (Exec.discard_safe (count + 1)).names.bind fun _ =>
        (Exec.quiet_create _).names.bind fun _ => .pure _

theorem raise_tracks (hroomy : Roomy cs) (hroom : s.context.sp < Capacity.stack) (v : Value) :
    Tracks cs (proceed base pos next p (.ok (.raise v) s)) := by
  obtain ⟨u, t, hunwind⟩ := Exec.unwind_succeeds hroom base pos v
  unfold proceed
  dsimp only
  rw [hunwind]
  cases u with
  | caught ip => exact .running hroomy
  | uncaught v => exact .ended hroomy

/-- A call that has got its result does not fault, however long ago it was fetched. -/
theorem finishCall_tracks (hroomy : Roomy cs) (hroom : s.context.sp ≤ Capacity.stack)
    (callee : Function) (result : MethodResult) :
    Tracks cs (proceed base pos next p (finishCall pos next count callee (.settled result) s)) := by
  have hlt := sp_drop_lt hroom count
  cases result with
  | ok v =>
    simp only [finishCall, Exec.bind_apply, Exec.discard, Exec.push]
    rw [if_pos hlt]
    exact .running hroomy
  | exception v => exact raise_tracks hroomy hlt v
  | failed why => exact raise_tracks hroomy hlt _

end Config
end StackVM
