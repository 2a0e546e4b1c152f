import StackVM.Proofs.Machine.Work.Instructions

/-! # What a step does to the machine

Natives and nearly all instructions do no more to the machine than to name globals, to assign to
them and to work on the store. The two instructions of linking stand apart: one writes an operand of
the program, the other ends the linking phase. `Alters` lists these three cases for a step of a
configuration, at any depth of nested runs, so an invariant of the machine has one case for each.
-/
namespace StackVM
namespace Exec
variable {α : Type} {x : Exec α} {pos next : Nat} {base : Base}

theorem resolveGlobal_left (s : State) :
    ((resolveGlobal pos).left s).machine =
      match s.context.stack with
      | .str name :: _ => { s.machine with globals := (s.machine.globals.resolve name).2 }
      | _ => s.machine := by
  simp only [left, resolveGlobal, bind_apply, peek]
  cases s.context.stack with
  | nil => rfl
  | cons v below =>
    cases v with
    | str name =>
      simp only [bind_apply, resolveName, discard, push]
      by_cases hroom : ({ s.context with stack := s.context.stack.drop 1 } : Context).sp <
          Capacity.stack
      · rw [if_pos hroom]
        rfl
      · rw [if_neg hroom]
    | _ => rfl

theorem storeGlobal_left (index : Nat) (s : State) :
    ((storeGlobal pos index).left s).machine =
      match s.context.stack with
      | v :: _ => { s.machine with globals := s.machine.globals.set index v }
      | [] => s.machine := by
  simp only [left, storeGlobal, bind_apply, machine]
  by_cases hused : s.machine.globals.contains index = true
  · rw [if_pos hused]
    simp only [bind_apply, pop]
    cases s.context.stack <;> rfl
  · rw [if_neg hused]
    cases s.context.stack with
    | nil => rfl
    | cons v below =>
      have hfree : s.machine.globals.size ≤ index := by
        simpa [Globals.contains, Globals.size] using hused
      simp only [Globals.set_of_size_le hfree]
      rfl

theorem defGlobalFun_left (index : Nat) (s : State) :
    ∃ st, ((defGlobalFun pos index).left s).machine =
      match s.machine.globals.get? index, s.context.stack with
      | some current, .func f :: _ =>
        let name := s.machine.globals.describe index
        let merged := (s.machine.store.defineOverload current f name).1
        { s.machine with globals := s.machine.globals.set index merged, store := st }
      | _, _ => { s.machine with store := st } := by
  simp only [left, defGlobalFun, bind_apply, machine]
  cases s.machine.globals.get? index with
  | none => exact ⟨s.machine.store, rfl⟩
  | some current =>
    simp only [popFunction, bind_apply, pop]
    cases s.context.stack with
    | nil => exact ⟨s.machine.store, rfl⟩
    | cons v below =>
      cases v with
      | func f => exact ⟨_, rfl⟩
      | _ => exact ⟨_, rfl⟩

theorem resolveGlobal_works : Works (resolveGlobal pos) := by
  intro s
  rw [resolveGlobal_left]
  split
  next name _ _ => exact (Machine.Works.resolve s.machine name).worked
  next => exact .refl s.machine

theorem storeGlobal_works (index : Nat) : Works (storeGlobal pos index) := by
  intro s
  rw [storeGlobal_left]
  split
  next v _ _ => exact (Machine.Works.assign s.machine index v).worked
  next => exact .refl s.machine

theorem defGlobalFun_works (index : Nat) : Works (defGlobalFun pos index) := by
  intro s
  obtain ⟨st, hst⟩ := @defGlobalFun_left pos index s
  rw [hst]
  split
  next =>
    exact (Machine.Works.store s.machine st).worked.trans (Machine.Works.assign _ index _).worked
  next => exact (Machine.Works.store s.machine st).worked

theorem instr_works {i : Instr} (hpatch : i.opcode ≠ .patch) (hdone : i.opcode ≠ .initDone) :
    Works (instr base pos next i) := by
  obtain ⟨op, x⟩ := i
  cases op with
  | resolveGlobal => exact resolveGlobal_works
  | storeGlobal => exact storeGlobal_works _
  | defGlobalFun => exact defGlobalFun_works _
  | patch => exact absurd rfl hpatch
  | initDone => exact absurd rfl hdone
  | _ => exact (instr_spares rfl).works

theorem unwind_machine (exception : Value) (s : State) :
    ((unwind base pos exception).left s).machine = s.machine := by
  simp only [left, unwind, bind_apply, context]
  cases ownHandler? base s.context with
  | some h =>
    by_cases hroom : min h.sp s.context.sp < Capacity.stack <;>
      simp [hroom, bind_apply, modifyContext, fault, pure_apply]
  | none =>
    cases oldest? base.frames s.context.frames <;>
      simp [bind_apply, modifyContext, pure_apply]

theorem patch_left (target : UInt16) (s : State) :
    (patch pos target).left s = s ∨
      s.machine.phase = .linking ∧ patchable s.machine.program target.toNat = true ∧
        ∃ index q, s.machine.program.writeWord target.toNat index = .ok q ∧
          ((patch pos target).left s).machine = { s.machine with program := q } := by
  cases hres : patch pos target s with
  | error f s' =>
    left
    rw [left_eq_of_error hres, (patch_atomic target).error hres]
  | ok step s' =>
    right
    rw [left_eq_of_ok hres]
    simp only [patch, bind_apply, machine] at hres
    by_cases hphase : s.machine.phase = .linking
    · simp only [hphase, if_true, bind_apply, peek] at hres
      cases hstack : s.context.stack with
      | nil => simp [hstack] at hres
      | cons v below =>
        simp only [hstack] at hres
        cases v with
        | int n =>
          cases hindex : indexOperand? n with
          | none => simp [hindex, fault] at hres
          | some index =>
            simp only [hindex] at hres
            by_cases hpatch : patchable s.machine.program target.toNat = true
            · obtain ⟨q, hq⟩ := exists_writeWord hpatch index
              rw [writeOperand_apply hpatch hq] at hres
              cases hres
              exact ⟨hphase, hpatch, index, q, hq, rfl⟩
            · simp [writeOperand, bind_apply, machine, hpatch, fault] at hres
        | _ => simp [fault] at hres
    · simp [hphase, fault] at hres

end Exec

namespace Config

/-- The next step executes this instruction. -/
def Fetches (c : Config) (i : Instr) : Prop :=
  ∃ base ip next, c.control = .run base ip ∧
    c.state.machine.program.decodeAt ip = .ok (i, next)

/-- What a step can make of the machine. -/
inductive Alters (c : Config) : Machine → Prop
  | work {m : Machine} : ¬ c.Fetches ⟨.initDone, ()⟩ → c.state.machine.Worked m → Alters c m
  | link : c.Fetches ⟨.initDone, ()⟩ →
      Alters c (if c.state.machine.phase = .linking then { c.state.machine with phase := .running }
        else c.state.machine)
  | patch {target index : UInt16} {q : Program} : c.Fetches ⟨.patch, target⟩ →
      c.state.machine.phase = .linking →
      Exec.patchable c.state.machine.program target.toNat = true →
      c.state.machine.program.writeWord target.toNat index = .ok q →
      Alters c { c.state.machine with program := q }

variable {host : Host} {base : Base} {pos next count : Nat} {p : List Pending} {s : State}

theorem Fetches.unique {c : Config} {i j : Instr} (hi : c.Fetches i) (hj : c.Fetches j) :
    i = j := by
  obtain ⟨base, ip, next, hcontrol, hdecode⟩ := hi
  obtain ⟨base', ip', next', hcontrol', hdecode'⟩ := hj
  have hip : ip = ip' := by
    rw [hcontrol] at hcontrol'
    cases hcontrol'
    rfl
  rw [hip, hdecode'] at hdecode
  cases hdecode
  rfl

theorem act_worked (p : List Pending) (a : Action) (s : State) :
    s.machine.Worked (act p a s).state.machine := by
  induction a generalizing s with
  | done result => exact .refl s.machine
  | fault f => exact .refl s.machine
  | edit e resume ih =>
    simp only [act]
    exact (s.worked_withStore _).trans (ih _ _)
  | call callee args resume ih =>
    cases callee with
    | func f => exact .refl s.machine
    | _ =>
      simp only [act]
      exact (s.worked_withStore _).trans (ih _ _ _)
  | define native resume ih =>
    simp only [act]
    exact (s.machine.worked_defineNative native).trans (ih _ { s with machine := _ })
  | reset resume ih => exact ih { s with context := .new }

theorem tryNext_state (missing : Bool) (args : List Value) (fs : List Function) :
    (tryNext missing args p s fs).state = s := by
  cases fs <;> rfl

theorem dispatch_worked (callee : Function) (args : List Value) :
    s.machine.Worked (dispatch host callee args p s).state.machine := by
  cases callee with
  | closure r =>
    simp only [dispatch]
    split <;> exact .refl s.machine
  | native r =>
    simp only [dispatch]
    split
    next run _ => exact s.worked_withStore fun st => (run st args).perform st
    next run _ => exact act_worked p (run s args) s
  | chain r =>
    simp only [dispatch, tryNext_state]
    exact .refl s.machine

theorem proceed_machine (x : Exec Step) :
    (proceed base pos next p (x s)).state.machine = (x.left s).machine := by
  cases hres : x s with
  | error f s' =>
    rw [Exec.left_eq_of_error hres]
    rfl
  | ok step s' =>
    rw [Exec.left_eq_of_ok hres]
    cases step with
    | raise exception =>
      have hunwind : ((Exec.unwind base pos exception).left s').machine = s'.machine :=
        Exec.unwind_machine exception s'
      cases hout : Exec.unwind base pos exception s' with
      | error f t =>
        rw [Exec.left_eq_of_error hout] at hunwind
        simpa only [proceed, hout] using hunwind
      | ok u t =>
        rw [Exec.left_eq_of_ok hout] at hunwind
        cases u <;> simpa only [proceed, hout] using hunwind
    | _ => rfl

theorem finishCall_spares (callee : Function) (d : Dispatch) :
    Exec.Spares (finishCall pos next count callee d) := by
  cases d with
  | enter r =>
    apply Exec.reads_store.spares.bind
    intro st
    apply Exec.reads_requireFrame.spares.bind
    intro _
    apply (Exec.popN_spares (count + 1)).bind
    intro values
    apply Exec.reads_context.spares.bind
    intro c
    exact (Exec.pushFrame_spares _ _ _ _).bind fun _ => .pure _
  | settled result =>
    cases result with
    | ok v =>
      exact (Exec.discard_spares (count + 1)).bind fun _ =>
        (Exec.push_spares v).bind fun _ => .pure _
    | exception v => exact (Exec.discard_spares (count + 1)).bind fun _ => .pure _
    | failed why =>
      exact (Exec.discard_spares (count + 1)).bind fun _ =>
        (Exec.create_spares _).bind fun _ => .pure _

theorem runClosure_worked (r : ClosureRef) (args : List Value) (resume : Resume) :
    s.machine.Worked (runClosure r args resume p s).state.machine := by
  have hspares : Exec.Spares (Exec.pushFrame (s.machine.store.closure r).entry
    (s.machine.store.closure r) args (s.machine.store.closure r).entry s.context.sp) :=
    Exec.pushFrame_spares _ _ _ _
  have hpush := hspares.works s
  unfold runClosure
  dsimp only
  split
  next s' hok =>
    rw [Exec.left_eq_of_ok hok] at hpush
    exact hpush
  next f s' herror =>
    rw [Exec.left_eq_of_error herror] at hpush
    exact hpush.trans (act_worked p _ s')

theorem deliver_worked {result : Except Fault Dispatch} {work : Pending} {d : Config}
    (h : deliver result work p s = some d) : s.machine.Worked d.state.machine := by
  unfold deliver at h
  split at h
  next => cases h; rw [tryNext_state]; exact .refl s.machine
  next => cases h; rw [tryNext_state]; exact .refl s.machine
  next => cases h; exact .refl s.machine
  next => cases h; exact act_worked p _ s
  next => cases h; exact act_worked p _ s
  next => cases h; exact runClosure_worked _ _ _
  next => cases h; exact .refl s.machine
  next =>
    cases h
    rw [proceed_machine]
    exact (finishCall_spares _ _).works s
  next => cases h

theorem finishRun_machine (base : Base) (savedSp entry : Nat) (s : State)
    (result : Except Fault Exit) :
    (finishRun base savedSp entry s result).2.machine = s.machine := by
  rcases result with f | e
  · rfl
  · cases e <;> rfl

theorem fetch_alters (ip : Nat) :
    Alters ⟨.run base ip, p, s⟩ (fetch base ip p s).state.machine := by
  unfold fetch
  cases hdecode : s.machine.program.decodeAt ip with
  | error e =>
    apply Alters.work _ (.refl s.machine)
    rintro ⟨_, _, _, hcontrol, hfetch⟩
    cases hcontrol
    simp [hdecode] at hfetch
  | ok found =>
    obtain ⟨⟨op, x⟩, next⟩ := found
    have hfetches : Fetches ⟨.run base ip, p, s⟩ ⟨op, x⟩ := ⟨base, ip, next, rfl, hdecode⟩
    have hother : op ≠ .initDone → ¬ Fetches ⟨.run base ip, p, s⟩ ⟨.initDone, ()⟩ := by
      intro hop hdone
      exact hop (congrArg Instr.opcode (hfetches.unique hdone))
    dsimp only
    rw [proceed_machine]
    by_cases hpatch : op = .patch
    · cases hpatch
      rcases Exec.patch_left x s with hsame | ⟨hphase, hpatchable, index, q, hq, hmachine⟩
      · change Alters _ ((Exec.patch ip x).left s).machine
        rw [hsame]
        exact .work (hother nofun) (.refl s.machine)
      · change Alters _ ((Exec.patch ip x).left s).machine
        rw [hmachine]
        exact .patch hfetches hphase hpatchable hq
    · by_cases hdone : op = .initDone
      · cases hdone
        exact .link hfetches
      · exact .work (hother hdone) (Exec.instr_works hpatch hdone s)

/-- What a step does to the machine: work, the end of linking, or a patch. -/
theorem alters_of_step {c d : Config} (h : step host c = some d) : c.Alters d.state.machine := by
  obtain ⟨control, p, s⟩ := c
  have hwork : (∀ base ip, control ≠ .run base ip) → s.machine.Worked d.state.machine →
      Alters ⟨control, p, s⟩ d.state.machine := by
    intro hrun hworked
    apply Alters.work _ hworked
    rintro ⟨base, ip, _, hcontrol, _⟩
    exact hrun base ip hcontrol
  cases control with
  | run base ip =>
    cases h
    exact fetch_alters ip
  | dispatch callee args =>
    cases h
    exact hwork nofun (dispatch_worked callee args)
  | dispatched result =>
    cases p with
    | nil => cases h
    | cons work rest => exact hwork nofun (deliver_worked h)
  | exited result =>
    cases p with
    | nil => cases h
    | cons work rest =>
      cases work with
      | nested base savedSp entry resume =>
        cases h
        apply hwork nofun
        have hact := act_worked rest (resume (finishRun base savedSp entry s result).1
          (finishRun base savedSp entry s result).2) (finishRun base savedSp entry s result).2
        rw [finishRun_machine] at hact
        exact hact
      | _ => cases h

end Config
end StackVM
