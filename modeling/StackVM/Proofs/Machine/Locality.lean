import StackVM.Proofs.Machine.Twin.Runs

/-! # Runs are local to the stack they find

A run that starts on an empty context and ends with an outcome has looked at no value that it did
not push. So it does the same over any values that were there before, as long as the stack has room
for both: the heights that it keeps in frames and handlers are higher by their number. Natives that
see the context could tell the difference, so none of them may take part. Without them runs do not
nest, and a call that has found its callee still finds it on the stack once its dispatch is over.
-/
namespace StackVM

/-- An instruction that succeeds has found all values that it looks at. -/
theorem Exec.reach_le {base : Base} {pos next : Nat} {i : Instr} {s s' : State} {step : Step}
    (h : instr base pos next i s = .ok step s') : i.reach ≤ s.context.sp := by
  by_cases hdup : i.opcode = .dup
  · obtain ⟨op, x⟩ := i
    cases hdup
    change (peek pos >>= fun v => pushNext pos v) s = .ok step s' at h
    rw [bind_apply] at h
    cases hpeek : peek pos s with
    | ok v t => exact sp_pos_of_peek hpeek
    | error f t =>
      rw [hpeek] at h
      cases h
  have hreach : i.reach = i.operands := by
    obtain ⟨op, x⟩ := i
    cases op with
    | dup => exact absurd rfl hdup
    | _ => rfl
  rw [hreach]
  cases hm : manages i.opcode with
  | false => exact (instr_trades hm _ _ h).1.enough
  | true =>
    obtain ⟨op, x⟩ := i
    cases op with
    | halt => exact (halt_trades _ _ h).1.enough
    | call =>
      rcases call_trades h with ⟨_, _, -, -, -, hlt⟩ | ⟨_, -, htrade⟩
      · exact hlt
      · exact htrade.enough
    | ret =>
      obtain ⟨v, below, -, -, hstack, -⟩ := ret_eq_ok h
      change 1 ≤ s.context.sp
      simp [Context.sp, hstack]
    | tryStart | tryEnd => exact Nat.zero_le _
    | _ => cases hm

theorem Exec.lt_sp_of_invoke {base : Base} {pos next : Nat} {i : Instr} {s s' : State}
    {callee : Function} {args : List Value}
    (h : instr base pos next i s = .ok (.invoke callee args) s') :
    args.length < s'.context.sp := by
  cases hm : manages i.opcode with
  | false => exact (instr_trades hm _ _ h).2.elim
  | true =>
    obtain ⟨op, x⟩ := i
    cases op with
    | call =>
      rcases call_trades h with ⟨_, _, heq, hlength, rfl, hlt⟩ | ⟨_, heq, -⟩
      · cases heq
        rw [hlength]
        exact hlt
      · cases heq
    | halt =>
      obtain ⟨-, -, v, heq⟩ := halt_trades _ _ h
      cases heq
    | ret =>
      obtain ⟨_, _, _, _, -, -, -, -, ⟨-, -, heq, -⟩ | ⟨-, heq, -⟩⟩ := ret_eq_ok h <;> cases heq
    | tryStart => cases (tryStart_eq_ok h).1
    | tryEnd => cases (tryEnd_eq_ok h).1
    | _ => cases hm

namespace Config
variable {host : Host} {c d : Config} {s : State}

/-- A native that sees the context is called with the next step. -/
def Consults (host : Host) (c : Config) : Prop :=
  ∃ ref args run, c.control = .dispatch (.native ref) args ∧
    (c.state.machine.store.native ref).code.body host = .contextual run

instance (host : Host) (c : Config) : Decidable (c.Consults host) :=
  match hcontrol : c.control with
  | .dispatch (.native ref) args =>
    match hbody : (c.state.machine.store.native ref).code.body host with
    | .contextual run => .isTrue ⟨ref, args, run, hcontrol, hbody⟩
    | .pure _ => .isFalse fun ⟨_, _, _, hc, hrun⟩ => by
      cases hcontrol.symm.trans hc
      cases hbody.symm.trans hrun
  | .dispatch (.closure _) _ | .dispatch (.chain _) _ | .run _ _ | .dispatched _ | .exited _ =>
    .isFalse fun ⟨_, _, _, hc, _⟩ => by cases hcontrol.symm.trans hc

/-- No run is nested in another, and a call that waits for its dispatch still has its callee and
its arguments. -/
inductive Level : Config → Prop
  | run {base : Base} {ip : Nat} {s : State} : Level ⟨.run base ip, [], s⟩
  | exited {result : Except Fault Exit} {s : State} : Level ⟨.exited result, [], s⟩
  | choosing {control : Control} {works : List Pending} {base : Base} {pos next count : Nat}
      {callee : Function} {s : State} : control.IsChoosing →
      (∀ w ∈ works, ∃ older missing args, w = .overloads older missing args) →
      count < s.context.sp → Level ⟨control, works ++ [.call base pos next count callee], s⟩

theorem tryNext_level {missing : Bool} {args : List Value} {works : List Pending} {base : Base}
    {pos next count : Nat} {callee : Function} (hlt : count < s.context.sp)
    (hworks : ∀ w ∈ works, ∃ older missing args, w = .overloads older missing args)
    (fs : List Function) :
    (tryNext missing args (works ++ [.call base pos next count callee]) s fs).Level := by
  cases fs with
  | nil => exact .choosing trivial hworks hlt
  | cons f fs =>
    rw [tryNext, ← List.cons_append]
    exact .choosing trivial (List.forall_mem_cons.mpr ⟨⟨_, _, _, rfl⟩, hworks⟩) hlt

theorem proceed_level (base : Base) (pos next : Nat) {r : EStateM.Result Fault State Step}
    (hr : ∀ callee args t, r = .ok (.invoke callee args) t → args.length < t.context.sp) :
    (proceed base pos next [] r).Level := by
  unfold proceed
  split
  next => exact .exited
  next => exact .run
  next => exact .run
  next => exact .exited
  next =>
    split
    · exact .run
    · exact .exited
    · exact .exited
  next callee args t =>
    rw [← List.nil_append [Pending.call _ _ _ _ _]]
    exact .choosing trivial (List.forall_mem_nil _) (hr callee args t rfl)

theorem not_invoke_of_finishCall {pos next count : Nat} {callee f : Function} {args : List Value}
    {chosen : Dispatch} {t : State} :
    finishCall pos next count callee chosen s ≠ .ok (.invoke f args) t := by
  intro h
  cases chosen with
  | enter r => cases (enter_eq_ok h).1
  | settled result =>
    cases result with
    | exception | failed => cases h
    | ok v =>
      simp only [finishCall, Exec.bind_apply, Exec.discard, Exec.push] at h
      split at h
      · cases h
      · cases h

theorem dispatch_level {callee f : Function} {args : List Value} {works : List Pending}
    {base : Base} {pos next count : Nat} (hlt : count < s.context.sp)
    (hworks : ∀ w ∈ works, ∃ older missing args, w = .overloads older missing args)
    (hpure : ¬ Consults host ⟨.dispatch f args, works ++ [.call base pos next count callee], s⟩) :
    (dispatch host f args (works ++ [.call base pos next count callee]) s).Level := by
  cases f with
  | chain r => exact tryNext_level hlt hworks _
  | closure r =>
    unfold dispatch
    dsimp only
    split
    · exact .choosing trivial hworks hlt
    · exact .choosing trivial hworks hlt
  | native r =>
    unfold dispatch
    dsimp only
    split
    next => exact .choosing trivial hworks hlt
    next run hrun => exact absurd ⟨r, args, run, rfl, hrun⟩ hpure

theorem Level.step (h : c.Level) (hpure : ¬ c.Consults host) (hstep : Config.step host c = some d) :
    d.Level := by
  cases h with
  | exited => cases hstep
  | @run base ip s =>
    cases hstep
    unfold fetch
    split
    next => exact .exited
    next => exact proceed_level base ip _ fun _ _ _ => Exec.lt_sp_of_invoke
  | @choosing control works base pos next count callee s hchoosing hworks hlt =>
    cases control with
    | run | exited => exact hchoosing.elim
    | dispatch f args =>
      cases hstep
      exact dispatch_level hlt hworks hpure
    | dispatched result =>
      cases works with
      | nil =>
        cases result with
        | error f =>
          cases hstep
          exact .exited
        | ok chosen =>
          cases hstep
          exact proceed_level base pos next fun _ _ _ h => absurd h not_invoke_of_finishCall
      | cons w works =>
        obtain ⟨⟨older, missing, args, rfl⟩, hrest⟩ := List.forall_mem_cons.mp hworks
        change deliver result (.overloads older missing args)
          (works ++ [.call base pos next count callee]) s = some d at hstep
        unfold deliver at hstep
        split at hstep
        next =>
          cases hstep
          exact tryNext_level hlt hrest _
        next =>
          cases hstep
          exact tryNext_level hlt hrest _
        next =>
          cases hstep
          exact .choosing trivial hrest hlt
        all_goals contradiction

theorem Level.pending (h : c.Level) {work : Pending} {rest : List Pending}
    (hpending : c.pending = work :: rest) :
    (∃ older missing args, work = .overloads older missing args) ∨
      ∃ base pos next count callee, work = .call base pos next count callee ∧
        count < c.state.context.sp := by
  cases h with
  | run | exited => cases hpending
  | @choosing control works base pos next count callee s _ hworks hlt =>
    cases works with
    | nil =>
      cases hpending
      exact .inr ⟨_, _, _, _, _, rfl, hlt⟩
    | cons w works =>
      cases hpending
      exact .inl (hworks _ List.mem_cons_self)

/-- No native waits for the end of a run. -/
theorem Level.step_exited (h : c.Level) (host : Host) {result : Except Fault Exit}
    (hc : c.control = .exited result) : Config.step host c = none := by
  cases h with
  | run => cases hc
  | exited => rfl
  | choosing hchoosing =>
    cases hc
    exact hchoosing.elim

theorem Level.not_resets (h : c.Level) (hpure : ¬ c.Consults host) : ¬ c.Resets host := by
  rintro ⟨a, rest, s, hresumes, -⟩
  cases hresumes with
  | start hrun => exact hpure ⟨_, _, _, rfl, hrun⟩
  | reply hreply =>
    cases hreply with
    | settled | failed | crowded | ended =>
      obtain ⟨_, _, _, hwork⟩ | ⟨_, _, _, _, _, hwork, -⟩ := h.pending rfl <;> cases hwork

theorem Level.reach_le (h : c.Level) (hstep : Config.step host c = some d)
    (hsound : ∀ f, d.control ≠ .exited (.error f)) : c.reach ≤ c.state.context.sp := by
  obtain ⟨control, pending, s⟩ := c
  cases control with
  | dispatch | exited => exact Nat.zero_le _
  | run base ip =>
    cases hdecode : s.machine.program.decodeAt ip with
    | error e => simp [reach, hdecode]
    | ok found =>
      obtain ⟨i, next⟩ := found
      have hreach : reach ⟨.run base ip, pending, s⟩ = i.reach := by simp [reach, hdecode]
      rw [step_run hdecode] at hstep
      cases hres : Exec.instr base ip next i s with
      | error f t =>
        rw [hres] at hstep
        cases hstep
        exact absurd rfl (hsound f)
      | ok step t =>
        rw [hreach]
        exact Exec.reach_le hres
  | dispatched result =>
    cases pending with
    | nil => exact Nat.zero_le _
    | cons work rest =>
      obtain ⟨_, _, _, rfl⟩ | ⟨_, _, _, _, _, rfl, hlt⟩ := h.pending rfl
      · exact Nat.zero_le _
      · exact hlt

end Config

theorem Config.Trace.level {host : Host} {c d : Config} {cs : List Config}
    (h : Trace host c cs d) (hc : c.Level) (hpure : ∀ x ∈ cs, ¬ x.Consults host) :
    d.Level ∧ ∀ x ∈ cs, x.Level := by
  induction h with
  | refl => exact ⟨hc, List.forall_mem_nil _⟩
  | cons hstep _ ih =>
    obtain ⟨hfirst, hrest⟩ := List.forall_mem_cons.mp hpure
    obtain ⟨hd, hcs⟩ := ih (hc.step hfirst hstep) hrest
    exact ⟨hd, List.forall_mem_cons.mpr ⟨hc, hcs⟩⟩

/-- The second floor consists of values. -/
def Shift.under (below : List Value) : Shift :=
  ⟨.new, ⟨below, [], []⟩, #[], none, rfl, rfl, rfl⟩

theorem Machine.finish_on {exit : Except Fault Exit} {m m' : Machine} {r ctx : Context}
    {outcome : Outcome} (h : finish 0 exit ⟨m, r⟩ = (.ok outcome, m', ctx)) (below : List Value) :
    finish 0 exit ⟨m, r.on ⟨below, [], []⟩⟩ = (.ok outcome, m',
      ⟨ctx.stack ++ below, ctx.frames.map (Frame.lift below.length), []⟩) := by
  have hnone : ∀ hs : List Handler, keepOldest 0 hs = [] := fun hs => List.drop_length
  unfold finish at h ⊢
  simp only [hnone] at h ⊢
  split at h <;> cases h <;> simp [Context.on, Context.sp]

/-- Stack locality: a run that starts on an empty context, in which no native sees the context, ends
in the same way over any values that the stack has room for below it. These are still there at the
end, below what the run leaves without them, and the frames that it leaves are higher by their
number. -/
theorem run_local {host : Host} {m m' : Machine} {ctx : Context} {entry : Nat} {cs : List Config}
    {outcome : Outcome} (below : List Value)
    (hrun : m.Runs host .new entry cs (.ok outcome) m' ctx)
    (hpure : ∀ c ∈ cs, ¬ c.Consults host)
    (hheight : ∀ c ∈ cs, c.state.context.sp + below.length ≤ Capacity.stack) :
    ∃ ds, m.Runs host ⟨below, [], []⟩ entry ds (.ok outcome) m'
      ⟨ctx.stack ++ below, ctx.frames.map (Frame.lift below.length), []⟩ := by
  obtain ⟨c, exit, s, htrace, hresult, hfinish⟩ := hrun
  obtain ⟨hcontrol, hpending, rfl⟩ := Config.control_of_result? hresult
  obtain ⟨-, hlevel⟩ := htrace.level .run hpure
  have hstart : (Shift.under below).Twins [] [] (m.runConfig .new entry)
      (m.runConfig ⟨below, [], []⟩ entry) := by
    have hhere : (Shift.under below).here m.startRun .new = ⟨m.startRun, .new⟩ := rfl
    have hthere : (Shift.under below).there m.startRun .new =
        ⟨m.startRun, ⟨below, [], []⟩⟩ := congrArg (State.mk · _) m.startRun.extend_empty
    unfold Machine.runConfig
    rw [← hhere, ← hthere]
    exact .intro _ _ (.run entry (.above (Nat.zero_le _) (Nat.zero_le _))) .nil
  obtain ⟨ds, d, hds,
      ⟨hlast, -⟩ | ⟨zs, z, z', f, hprefix, hstep, ⟨⟨base, ip, hz'⟩, -, hover⟩, -⟩⟩ :=
    hstart.trace htrace fun z hz z' hstep => by
      have hz_pure := hpure z hz
      have hz_level := hlevel z hz
      have hsound : ∀ f, z'.control ≠ .exited (.error f) := by
        intro f hf
        obtain ⟨_, hrest, -⟩ := htrace.after hz hstep
        have hstuck := (hz_level.step hz_pure hstep).step_exited host hf
        cases hrest with
        | cons hnext => cases hstuck.symm.trans hnext
        | refl =>
          rw [hcontrol] at hf
          cases hf
          cases hfinish
      refine ⟨Config.clear_of_step hstep, hz_level.not_resets hz_pure, hsound, .inl ?_, ?_,
        fun base _ hlt => absurd hlt (Nat.not_lt_zero _)⟩
      · rw [show (Shift.under below).low.sp = 0 from rfl, Nat.zero_add]
        exact hz_level.reach_le hstep hsound
      · intro ref args run hcall hrun
        exact absurd ⟨ref, args, run, hcall, hrun⟩ hz_pure
  · obtain @⟨control, control', p, p', m₁, r, hcontrols, hp⟩ := hlast
    cases hcontrol
    cases hcontrols
    rw [List.append_nil] at hpending
    cases hpending
    cases hp
    have hempty : (Shift.under below).here m₁ r = ⟨m₁, r⟩ := congrArg _ r.on_new
    have hbelow : (Shift.under below).there m₁ r = ⟨m₁, r.on ⟨below, [], []⟩⟩ :=
      congrArg (State.mk · _) m₁.extend_empty
    rw [hempty] at hfinish
    refine ⟨ds, _, exit, _, hds, rfl, ?_⟩
    rw [hbelow]
    exact Machine.finish_on hfinish below
  · have hz := hprefix.subset (List.mem_append_right zs List.mem_cons_self)
    rcases htrace.mem_or_eq hz hstep with hmem | rfl
    · have hfits := hheight z' hmem
      rw [show (Shift.under below).low.sp = 0 from rfl,
        show (Shift.under below).high.sp = below.length from rfl] at hover
      omega
    · rw [hcontrol] at hz'
      cases hz'

/-- Code that halts inside a call, with a value below the sum that it halts with. -/
def Program.abrupt : Array UInt8 :=
  (([⟨.makeClosure, ⟨2, 0, 0⟩⟩, ⟨.call, (0 : UInt8)⟩, ⟨.pushTrue, ()⟩, ⟨.pushInt, (2 : Int64)⟩,
    ⟨.pushInt, (1 : Int64)⟩, ⟨.fetchGlobal, (14 : UInt16)⟩, ⟨.call, (2 : UInt8)⟩,
    ⟨.halt, ()⟩] : List Instr).flatMap Instr.bytes).toArray

theorem run_local_abrupt :
    ∃ cs ds m, ((Machine.init []).load Program.abrupt).Runs Host.none .new 0 cs
        (.ok (.ok (.int 3))) m ⟨[.bool true], [⟨7, 0, ⟨0⟩, []⟩], []⟩ ∧
      ((Machine.init []).load Program.abrupt).Runs Host.none ⟨[.null], [], []⟩ 0 ds
        (.ok (.ok (.int 3))) m ⟨[.bool true, .null], [⟨7, 1, ⟨0⟩, []⟩], []⟩ := by
  have hrun : ∃ m, ((Machine.init []).load Program.abrupt).Runs Host.none .new 0 _
      (.ok (.ok (.int 3))) m ⟨[.bool true], [⟨7, 0, ⟨0⟩, []⟩], []⟩ :=
    Machine.exists_runs_of_path Host.none _ .new 0 18 (by decide +kernel)
  obtain ⟨m, hrun⟩ := hrun
  obtain ⟨ds, hds⟩ := run_local [.null] hrun (by decide +kernel) (by decide +kernel)
  exact ⟨_, ds, m, hrun, hds⟩

end StackVM
