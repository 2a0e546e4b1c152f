import StackVM.Proofs.Machine.Twin.Runs

/-! # Loading more code

Code that is loaded behind a program is of no concern to a run of that program. Only a fault can
tell the difference: an offset that was out of range lies inside the longer program. The built-in
natives pass on the faults of the calls they make, so a run that ends with an outcome has met none,
and on the longer program it goes through the same configurations.
-/
namespace StackVM

/-- The native ends with the fault of a call that it made, and never empties the context. -/
def Action.Passes : Action → Prop
  | .done _ => True
  | .fault _ => True
  | .edit _ resume => ∀ v, (resume v).Passes
  | .call _ _ resume =>
    (∀ f s, resume (.error f) s = .fault f) ∧ ∀ result s, (resume (.ok result) s).Passes
  | .define _ resume => ∀ index, (resume index).Passes
  | .reset _ => False

/-- The native that waits for a result passes on a fault that comes instead. -/
def Resume.Passes (resume : Resume) : Prop :=
  (∀ f s, resume (.error f) s = .fault f) ∧ ∀ result s, (resume (.ok result) s).Passes

def Pending.Passes : Pending → Prop
  | .native _ resume | .nested _ _ _ resume => Resume.Passes resume
  | .call _ _ _ _ _ | .overloads _ _ _ => True

theorem Action.Passes.not_resets {a : Action} (h : a.Passes) (s : State) : ¬ a.Resets s := by
  induction a generalizing s with
  | done | fault => exact id
  | edit e resume ih => exact ih _ (h _) _
  | define native resume ih => exact ih _ (h _) _
  | reset => exact h.elim
  | call callee args resume ih =>
    cases callee with
    | func => exact id
    | _ => exact ih _ _ (h.2 _ _) _

theorem Resume.Passes.action {resume : Resume} (h : Resume.Passes resume)
    (answer : Except Fault MethodResult) (s : State) : (resume answer s).Passes := by
  cases answer with
  | error f =>
    rw [h.1]
    trivial
  | ok result => exact h.2 result s

theorem Builtin.callValue_passes (args : List Value) : (callValue args).Passes := by
  cases args with
  | nil => trivial
  | cons callee args =>
    refine ⟨fun _ _ => rfl, fun result s => ?_⟩
    cases result with
    | ok | exception => trivial
    | failed why =>
      cases callee with
      | func f => exact fun _ => trivial
      | _ => trivial

theorem NativeCode.body_none {code : NativeCode} {run : State → List Value → Action}
    (h : code.body Host.none = .contextual run) : run = fun _ => Builtin.callValue := by
  cases code with
  | host key => cases h
  | builtin b =>
    cases b with
    | call =>
      cases h
      rfl
    | _ => cases h

namespace Config
variable {c d : Config} {p : List Pending} {s : State}

def Passes (c : Config) : Prop := ∀ work ∈ c.pending, work.Passes

/-- A fault is on its way to the end of the run. -/
def Doomed (c : Config) : Prop :=
  ∃ f, c.control = .exited (.error f) ∨ c.control = .dispatched (.error f)

theorem act_passes {a : Action} (ha : a.Passes) (hp : ∀ work ∈ p, work.Passes) (s : State) :
    (act p a s).Passes := by
  induction a generalizing s with
  | done | fault => exact hp
  | edit e resume ih => exact ih _ (ha _) _
  | define native resume ih => exact ih _ (ha _) _
  | reset => exact ha.elim
  | call callee args resume ih =>
    cases callee with
    | func f => exact List.forall_mem_cons.mpr ⟨ha, hp⟩
    | _ => exact ih _ _ (ha.2 _ _) _

theorem tryNext_passes (missing : Bool) (args : List Value) (hp : ∀ work ∈ p, work.Passes)
    (fs : List Function) : (tryNext missing args p s fs).Passes := by
  cases fs with
  | nil => exact hp
  | cons f fs => exact List.forall_mem_cons.mpr ⟨trivial, hp⟩

theorem dispatch_passes (callee : Function) (args : List Value) (hp : ∀ work ∈ p, work.Passes) :
    (dispatch Host.none callee args p s).Passes := by
  cases callee with
  | closure r =>
    unfold dispatch
    dsimp only
    split <;> exact hp
  | chain r => exact tryNext_passes false args hp _
  | native r =>
    unfold dispatch
    dsimp only
    split
    next => exact hp
    next run hrun =>
      rw [NativeCode.body_none hrun]
      exact act_passes (Builtin.callValue_passes args) hp s

theorem proceed_passes (base : Base) (pos next : Nat) (hp : ∀ work ∈ p, work.Passes)
    (r : EStateM.Result Fault State Step) : (proceed base pos next p r).Passes := by
  unfold proceed
  split
  · exact hp
  · exact hp
  · exact hp
  · exact hp
  · split <;> exact hp
  · exact List.forall_mem_cons.mpr ⟨trivial, hp⟩

theorem fetch_passes (base : Base) (ip : Nat) (hp : ∀ work ∈ p, work.Passes) :
    (fetch base ip p s).Passes := by
  unfold fetch
  split
  · exact hp
  · exact proceed_passes base ip _ hp _

theorem deliver_passes {result : Except Fault Dispatch} {work : Pending} (hwork : work.Passes)
    (hp : ∀ work ∈ p, work.Passes) (h : deliver result work p s = some d) : d.Passes := by
  cases work with
  | nested => cases h
  | call base pos next count callee =>
    cases result with
    | error f =>
      cases h
      exact hp
    | ok chosen =>
      cases h
      exact proceed_passes base pos next hp _
  | native args resume =>
    cases result with
    | error f =>
      cases h
      exact act_passes (hwork.action _ s) hp s
    | ok chosen =>
      cases chosen with
      | settled result =>
        cases h
        exact act_passes (hwork.action _ s) hp s
      | enter r =>
        cases h
        unfold runClosure
        dsimp only
        split
        · exact List.forall_mem_cons.mpr ⟨hwork, hp⟩
        · exact act_passes (hwork.action _ _) hp _
  | overloads older missing args =>
    unfold deliver at h
    split at h
    next =>
      cases h
      exact tryNext_passes true _ hp _
    next =>
      cases h
      exact tryNext_passes _ _ hp _
    next =>
      cases h
      exact hp
    all_goals contradiction

theorem step_passes (h : step Host.none c = some d) (hc : c.Passes) : d.Passes := by
  obtain ⟨control, p, s⟩ := c
  cases control with
  | run base ip =>
    cases h
    exact fetch_passes base ip hc
  | dispatch callee args =>
    cases h
    exact dispatch_passes callee args hc
  | dispatched result =>
    cases p with
    | nil => cases h
    | cons work p =>
      obtain ⟨hwork, hp⟩ := List.forall_mem_cons.mp hc
      exact deliver_passes hwork hp h
  | exited result =>
    cases p with
    | nil => cases h
    | cons work p =>
      obtain ⟨hwork, hp⟩ := List.forall_mem_cons.mp hc
      cases work with
      | nested base savedSp entry resume =>
        cases h
        exact act_passes (hwork.action _ _) hp _
      | call | overloads | native => cases h

/-- Whoever waits for a result passes the fault on. -/
theorem step_doomed (hc : c.Passes) (hdoomed : c.Doomed) (h : step Host.none c = some d) :
    d.Doomed := by
  obtain ⟨control, p, s⟩ := c
  obtain ⟨f, hexited | hdispatched⟩ := hdoomed
  · cases hexited
    cases p with
    | nil => cases h
    | cons work p =>
      have hwork := hc work List.mem_cons_self
      cases work with
      | nested base savedSp entry resume =>
        cases h
        dsimp only [finishRun]
        rw [hwork.1]
        exact ⟨f, .inr rfl⟩
      | call | overloads | native => cases h
  · cases hdispatched
    cases p with
    | nil => cases h
    | cons work p =>
      have hwork := hc work List.mem_cons_self
      cases work with
      | nested => cases h
      | call =>
        cases h
        exact ⟨f, .inl rfl⟩
      | overloads =>
        cases h
        exact ⟨f, .inr rfl⟩
      | native args resume =>
        cases h
        rw [hwork.1]
        exact ⟨f, .inr rfl⟩

theorem Trace.not_doomed {cs : List Config} (h : Trace Host.none c cs d) (hc : c.Passes)
    (hd : ¬ d.Doomed) : ¬ c.Doomed := by
  induction h with
  | refl => exact hd
  | cons hstep _ ih =>
    intro hdoomed
    exact ih (step_passes hstep hc) hd (step_doomed hc hdoomed hstep)

theorem Trace.passes {cs : List Config} (h : Trace Host.none c cs d) (hc : c.Passes) :
    ∀ x ∈ cs, x.Passes := by
  induction h with
  | refl => simp
  | cons hstep _ ih => exact List.forall_mem_cons.mpr ⟨hc, ih (step_passes hstep hc)⟩

theorem Passes.not_resets (hc : c.Passes) : ¬ c.Resets Host.none := by
  rintro ⟨a, rest, s, hresumes, hresets⟩
  cases hresumes with
  | start hrun =>
    rw [NativeCode.body_none hrun] at hresets
    exact (Builtin.callValue_passes _).not_resets _ hresets
  | @reply _ answer s resume rest hreply =>
    have hresume : Resume.Passes resume := by
      cases hreply with
      | settled | failed | crowded | ended => exact hc _ List.mem_cons_self
    exact (hresume.action answer s).not_resets s hresets

end Config

namespace Machine
variable (m : Machine) (code : Array UInt8)

theorem startRun_extend : (m.extend code).startRun = m.startRun.extend code := by
  unfold startRun extend
  dsimp only
  split <;> rfl

theorem endRun_extend : (m.extend code).endRun = m.endRun.extend code := by
  unfold endRun extend
  dsimp only
  split <;> rfl

theorem finish_extend {handlers : Nat} {exit : Except Fault Exit} {s : State} {m' : Machine}
    {result : Except Fault Outcome} {ctx : Context}
    (h : finish handlers exit s = (result, m', ctx)) :
    finish handlers exit { s with machine := s.machine.extend code } =
      (result, m'.extend code, ctx) := by
  unfold finish at h ⊢
  dsimp only at h ⊢
  rw [endRun_extend]
  split at h <;> cases h <;> rfl

/-- As long as code is being linked, loading more of it changes nothing else. -/
theorem load_load (more : Array UInt8) : (m.load code).load more = (m.load code).extend more := rfl

end Machine

/-- The floors have nothing on them, and the second program goes on. -/
def Shift.behind (code : Array UInt8) : Shift := ⟨.new, .new, code, none, rfl, rfl, rfl⟩

/-- The same point of a run, on a machine with further code behind its program. -/
structure Config.Longer (code : Array UInt8) (x y : Config) : Prop where
  control : y.control = x.control
  pending : y.pending.length = x.pending.length
  machine : y.state.machine = x.state.machine.extend code
  context : y.state.context = x.state.context

theorem Shift.Twins.longer {code : Array UInt8} {x y : Config}
    (h : (Shift.behind code).Twins [] [] x y) : x.Longer code y := by
  obtain @⟨control, control', p, p', m, r, hcontrol, hp⟩ := h
  refine ⟨?_, ?_, rfl, rfl⟩
  · cases hcontrol with
    | run ip hbase =>
      cases hbase with
      | above => rfl
      | below hruns => cases hruns
    | dispatch | dispatched | exited => rfl
  · simp only [List.append_nil, hp.length_eq]

theorem Machine.Runs.longer {m m' : Machine} {ctx ctx' : Context} {entry : Nat} {cs : List Config}
    {outcome : Outcome} (h : m.Runs Host.none ctx entry cs (.ok outcome) m' ctx')
    (code : Array UInt8) :
    ∃ ds, (m.extend code).Runs Host.none ctx entry ds (.ok outcome) (m'.extend code) ctx' ∧
      List.Forall₂ (Config.Longer code) cs ds := by
  obtain ⟨c, exit, s, htrace, hresult, hfinish⟩ := h
  obtain ⟨hcontrol, hpending, rfl⟩ := Config.control_of_result? hresult
  have hhere : (Shift.behind code).here m.startRun ctx = ⟨m.startRun, ctx⟩ :=
    congrArg _ (Context.on_new ctx)
  have hthere : (Shift.behind code).there m.startRun ctx = ⟨(m.extend code).startRun, ctx⟩ := by
    rw [Machine.startRun_extend]
    exact congrArg _ (Context.on_new ctx)
  have hstart : (Shift.behind code).Twins [] [] (m.runConfig ctx entry)
      ((m.extend code).runConfig ctx entry) := by
    unfold Machine.runConfig
    rw [← hhere, ← hthere]
    exact .intro _ _ (.run entry (.above (Nat.zero_le _) (Nat.zero_le _))) .nil
  have hgood : ¬ c.Doomed := by
    rintro ⟨f, hf | hf⟩
    · rw [hcontrol] at hf
      cases hf
      cases hfinish
    · rw [hcontrol] at hf
      cases hf
  have hpasses : (m.runConfig ctx entry).Passes := List.forall_mem_nil _
  obtain ⟨ds, d, hds, ⟨hlast, hall⟩ | ⟨zs, z, z', f, -, -, ⟨-, hfits, hover⟩, -⟩⟩ :=
    hstart.trace htrace fun z hz z' hstep => by
      have hz_passes := htrace.passes hpasses z hz
      obtain ⟨_, hrest, -⟩ := htrace.after hz hstep
      refine ⟨Config.clear_of_step hstep, hz_passes.not_resets, fun f hf => ?_,
        .inr ⟨rfl, rfl⟩, ?_, fun base _ hlt => absurd hlt (Nat.not_lt_zero _)⟩
      · exact hrest.not_doomed (Config.step_passes hstep hz_passes) hgood ⟨f, .inl hf⟩
      · intro ref args run _ hrun m r
        rw [NativeCode.body_none hrun]
        exact Builtin.callValue_alike _ args
  · have hd := hlast.longer
    refine ⟨ds, ⟨d, exit, d.state, hds, ?_, ?_⟩, hall.imp fun _ _ h => h.longer⟩
    · rw [Config.result?, hd.control, hcontrol, List.length_eq_zero_iff.mp
        (hd.pending.trans (by rw [hpending]; rfl))]
    · have hstate : d.state = ⟨c.state.machine.extend code, c.state.context⟩ := by
        rw [← hd.machine, ← hd.context]
      rw [hstate]
      exact Machine.finish_extend code hfinish
  · exact absurd hover (Nat.not_lt_of_le hfits)

/-- Loading more code never changes the meaning of code that runs already: on a new machine with the
built-in natives, a run that ends with an outcome goes through the same configurations if more code
is loaded behind the program, and leaves the same behind but for that code. -/
theorem load_preserves_runs (argv : List String) (code more : Array UInt8) (ctx : Context)
    (entry : Nat) {cs : List Config} {outcome : Outcome} {m : Machine} {ctx' : Context}
    (h : ((Machine.init argv).load code).Runs Host.none ctx entry cs (.ok outcome) m ctx') :
    ∃ ds, (((Machine.init argv).load code).load more).Runs Host.none ctx entry ds (.ok outcome)
        (m.extend more) ctx' ∧
      List.Forall₂ (Config.Longer more) cs ds := by
  rw [Machine.load_load]
  exact h.longer more

/-- Code that calls a function by way of a native. -/
def Program.detour : Array UInt8 :=
  (([⟨.makeClosure, ⟨6, 0, 0⟩⟩, ⟨.fetchGlobal, (23 : UInt16)⟩, ⟨.call, (1 : UInt8)⟩, ⟨.halt, ()⟩,
    ⟨.pushTrue, ()⟩, ⟨.ret, ()⟩] : List Instr).flatMap Instr.bytes).toArray

theorem load_preserves_runs_detour :
    ∃ cs ds m ctx, ((Machine.init []).load Program.detour).Runs Host.none .new 0 cs
        (.ok (.ok (.bool true))) m ctx ∧
      (((Machine.init []).load Program.detour).load #[255]).Runs Host.none .new 0 ds
        (.ok (.ok (.bool true))) (m.extend #[255]) ctx ∧
      List.Forall₂ (Config.Longer #[255]) cs ds := by
  have hrun : (((Machine.init []).load Program.detour).run Host.none 30 .new 0).map (·.1) =
      some (.ok (.ok (.bool true))) := by decide +kernel
  obtain ⟨⟨result, m, ctx⟩, hrun, hresult⟩ := Option.map_eq_some_iff.mp hrun
  obtain ⟨cs, hcs⟩ := Machine.exists_runs_iff.mpr ⟨30, hrun⟩
  cases hresult
  obtain ⟨ds, hds, hall⟩ := load_preserves_runs [] Program.detour #[255] .new 0 hcs
  exact ⟨cs, ds, m, ctx, hcs, hds, hall⟩

end StackVM
