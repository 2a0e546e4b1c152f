import StackVM.Proofs.Machine.Layers.Steps

/-! # Runs own what they push

Whoever starts a run, the frames and handlers that it finds stay as they are until it ends, and
when it has ended they are what is left: of a nested run in any case, of an outer one if it let an
exception escape. An outer run that halts may leave frames behind, but no handlers.
-/
namespace StackVM.Config
variable {host : Host} {before : Context} {base : Base} {start c : Config} {cs : List Config}

/-- The first configuration of a run, with the context in which it was started and its base. The
host starts it, or a native does for a closure that there is a frame for. -/
inductive Begins : Context → Base → Config → Prop
  | outer (m : Machine) (ctx : Context) (entry : Nat) :
      Begins ctx ⟨ctx.depth, ctx.handlerCount, false⟩ (m.runConfig ctx entry)
  | nested (r : ClosureRef) (args : List Value) (resume : Resume) (rest : List Pending)
      {s : State} : s.context.depth < Capacity.frames →
      Begins s.context ⟨s.context.depth, s.context.handlerCount, true⟩
        (runClosure r args resume rest s)

theorem Begins.floor (h : Begins before base start) :
    ∃ ip fs, start.control = .run base ip ∧ base.Floor before fs ∧
      start.state.context = { before with frames := fs } := by
  cases h with
  | outer m _ entry => exact ⟨entry, before.frames, rfl, .outer, rfl⟩
  | @nested r args resume rest s hdepth =>
    obtain ⟨f, s', hpush, hsaved, hs'⟩ := pushFrame_eq_ok hdepth (s.machine.store.closure r) args
      (s.machine.store.closure r).entry (s.machine.store.closure r).entry s.context.sp
    unfold runClosure
    dsimp only
    rw [hpush]
    exact ⟨_, f :: s.context.frames, rfl, .nested hsaved, hs'⟩

theorem Begins.pending_eq {work : Pending} {rest : List Pending} (h : Begins before base start)
    (hpending : start.pending = work :: rest) :
    base.nested = true ∧ ∃ entry resume, work = .nested base before.sp entry resume := by
  cases h with
  | outer => cases hpending
  | @nested r args resume rest s hdepth =>
    obtain ⟨f, s', hpush, -, -⟩ := pushFrame_eq_ok hdepth (s.machine.store.closure r) args
      (s.machine.store.closure r).entry (s.machine.store.closure r).entry s.context.sp
    unfold runClosure at hpending
    dsimp only at hpending
    rw [hpush] at hpending
    cases hpending
    exact ⟨rfl, _, _, rfl⟩

/-- As long as no native empties the context, a run stays over its floor until it has ended. -/
theorem Begins.layers (hstart : Begins before base start) (hroom : before.sp ≤ Capacity.stack)
    (htrace : Trace host start cs c)
    (hcs : ∀ x ∈ cs, ¬ x.Resets host ∧ ¬ x.Ended start.pending) :
    ∃ fs, base.Floor before fs ∧ c.state.context.sp ≤ Capacity.stack ∧
      c.Layers [] (Layer [] base fs before) start.pending := by
  obtain ⟨ip, fs, hcontrol, hfloor, hcontext⟩ := hstart.floor
  refine ⟨fs, hfloor, ?_⟩
  refine htrace.induct (I := fun _ x => x.state.context.sp ≤ Capacity.stack ∧
    x.Layers [] (Layer [] base fs before) start.pending) ⟨?_, [], rfl, ?_⟩ hcs ?_
  · rw [hcontext]
    exact hroom
  · rw [hcontrol, hcontext]
    exact ⟨rfl, .bottom List.nil_suffix rfl rfl⟩
  · rintro xs x y ⟨hcalm, hgoing⟩ ⟨hsp, hlayers⟩ hstep
    have hmoves := moves_of_step hstep hcalm hsp
    refine ⟨hmoves.sp_le hsp, hlayers.step hmoves (by simp) (hlayers.stays (fun _ h => h) hgoing)
      (Layer.carries _ _ _ _ _) ?_⟩
    rintro b op - ⟨rfl, hover⟩ heffect
    exact heffect.layer hfloor hover (Nat.zero_le _) (Nat.zero_le _)

theorem Begins.layers_of_mem (hstart : Begins before base start)
    (hroom : before.sp ≤ Capacity.stack) (htrace : Trace host start cs c)
    (hcs : ∀ x ∈ cs, ¬ x.Resets host ∧ ¬ x.Ended start.pending) {x : Config} (hx : x ∈ cs) :
    ∃ fs, base.Floor before fs ∧ x.state.context.sp ≤ Capacity.stack ∧
      x.Layers [] (Layer [] base fs before) start.pending := by
  obtain ⟨cs₁, cs₂, rfl⟩ := List.append_of_mem hx
  exact hstart.layers hroom htrace.split.1 fun z hz => hcs z (List.mem_append_left _ hz)

theorem Layers.suffix {fs : List Frame} {rest : List Pending} (hfloor : base.Floor before fs)
    (h : c.Layers [] (Layer [] base fs before) rest) :
    before.frames <:+ c.state.context.frames ∧ before.handlers <:+ c.state.context.handlers := by
  obtain ⟨_, _, hlayered⟩ := h
  exact hlayered.suffix fun _ _ hk => hk.suffix hfloor

theorem Begins.replies {fs : List Frame} {work : Pending} {rest : List Pending}
    {answer : Except Fault MethodResult} {s : State} {resume : Resume}
    (hstart : Begins before base start) (hfloor : base.Floor before fs)
    (hlayers : c.Layers [] (Layer [] base fs before) start.pending)
    (hpending : start.pending = work :: rest) (hreply : Replies c answer s resume rest) :
    before.Shrinks [] s.context := by
  obtain ⟨q, hq, hlayers⟩ := hlayers
  obtain ⟨hnested, entry, resume', hwork⟩ := hstart.pending_eq hpending
  have hnil : ∀ {w}, c.pending = w :: rest → q = [] := by
    intro w hw
    have hlength := congrArg List.length (hw.symm.trans hq)
    rw [hpending] at hlength
    simp only [List.length_cons, List.length_append] at hlength
    exact List.length_eq_zero_iff.mp (by omega)
  cases hreply with
  | settled | failed | crowded =>
    cases hnil rfl
    exact hlayers.elim
  | ended =>
    cases hnil rfl
    rw [hpending, hwork] at hq
    cases hq
    exact Layer.finishRun hlayers hfloor hnested (Nat.zero_le _) _

theorem Begins.finish {fs : List Frame} {result : Except Fault Exit} {s : State}
    {outcome : Outcome} {m : Machine} {ctx : Context} (hfloor : base.Floor before fs)
    (hlayers : c.Layers [] (Layer [] base fs before) [])
    (hresult : c.result? = some (result, s))
    (hfinish : Machine.finish before.handlerCount result s = (.ok outcome, m, ctx)) :
    ctx.handlers = before.handlers ∧ ∀ v, outcome = .exception v → ctx.frames = before.frames := by
  obtain ⟨hcontrol, hpending, rfl⟩ := control_of_result? hresult
  obtain ⟨q, hq, hlayer⟩ := hlayers
  rw [hpending, List.append_nil] at hq
  subst hq
  rw [hcontrol] at hlayer
  have hkeep : keepOldest before.handlerCount c.state.context.handlers = before.handlers :=
    keepOldest_eq_of_suffix (Layer.suffix hlayer hfloor).2 rfl
  cases result with
  | error f => cases hfinish
  | ok e =>
    cases e with
    | halted v | returned v =>
      cases hfinish
      exact ⟨hkeep, fun v hv => by cases hv⟩
    | raised v =>
      cases hfinish
      exact ⟨hkeep, fun _ _ => hlayer.1⟩

end StackVM.Config

namespace StackVM

/-- A run owns only what it pushed itself: the frames and handlers that it found are at the bottom
of the context at each of its points. A nested run leaves just these to its native, however it
ends; an outer run leaves just these handlers to the host, and just these frames if an exception
escaped from it. -/
theorem run_confined {host : Host} {before : Context} {base : Base} {start c : Config}
    {cs : List Config} (hbefore : before.Reachable host) (hstart : Config.Begins before base start)
    (htrace : Config.Trace host start cs c)
    (hcs : ∀ x ∈ cs, ¬ x.Resets host ∧ ¬ x.Ended start.pending) :
    before.frames <:+ c.state.context.frames ∧ before.handlers <:+ c.state.context.handlers ∧
    (∀ work rest answer s resume, start.pending = work :: rest →
      Config.Replies c answer s resume rest →
      s.context.frames = before.frames ∧ s.context.handlers = before.handlers) ∧
    (∀ result s outcome m ctx, start.pending = [] → c.result? = some (result, s) →
      Machine.finish before.handlerCount result s = (.ok outcome, m, ctx) →
      ctx.handlers = before.handlers ∧
        ∀ v, outcome = .exception v → ctx.frames = before.frames) := by
  obtain ⟨fs, hfloor, -, hlayers⟩ := hstart.layers hbefore.sp_le htrace hcs
  obtain ⟨hframes, hhandlers⟩ := hlayers.suffix hfloor
  refine ⟨hframes, hhandlers, ?_, ?_⟩
  · intro work rest answer s resume hpending hreply
    have hleft := hstart.replies hfloor hlayers hpending hreply
    exact ⟨hleft.frames, hleft.handlers⟩
  · intro result s outcome m ctx hpending hresult hfinish
    rw [hpending] at hlayers
    exact Config.Begins.finish hfloor hlayers hresult hfinish

/-- Three pieces of code: from 0 a call of a function that leaves a block open, in a block whose
handler catches the result; from 16 a call that faults in a block; from 25 an exception. -/
def Machine.sample : Machine where
  program := ⟨([⟨.pushNull, ()⟩, ⟨.tryStart, (6 : Int16)⟩, ⟨.fetchGlobal, (0 : UInt16)⟩,
    ⟨.call, (0 : UInt8)⟩, ⟨.throw, ()⟩, ⟨.halt, ()⟩,
    ⟨.tryStart, (0 : Int16)⟩, ⟨.pushTrue, ()⟩, ⟨.ret, ()⟩,
    ⟨.tryStart, (0 : Int16)⟩, ⟨.fetchGlobal, (1 : UInt16)⟩, ⟨.call, (0 : UInt8)⟩, ⟨.pop, ()⟩,
    ⟨.pushNull, ()⟩, ⟨.throw, ()⟩] : List Instr).flatMap Instr.bytes |>.toArray⟩
  globals := ⟨#[("f", .func (.closure ⟨0⟩)), ("g", .func (.closure ⟨1⟩))]⟩
  phase := .linking
  store := { Store.empty with closures := #[⟨11, 0, 0, [], []⟩, ⟨24, 0, 0, [], []⟩] }

/-- What the call that faults leaves behind. -/
def Context.leftover : Context := ⟨[], [⟨24, 0, ⟨0⟩, []⟩], [⟨19, 0, 0⟩]⟩

theorem Context.reachable_leftover : leftover.Reachable Host.none :=
  .of_run .new Machine.sample 20 16 (by decide)

theorem run_confined_leftover :
    Context.leftover.Reachable Host.none ∧
    ∃ cs c s m ctx, Config.Trace Host.none (Machine.sample.runConfig .leftover 25) cs c ∧
      (∀ x ∈ cs, ¬ x.Resets Host.none ∧ ¬ x.Ended []) ∧
      c.result? = some (.ok (.raised .null), s) ∧
      Machine.finish 1 (.ok (.raised .null)) s = (.ok (.exception .null), m, ctx) ∧
      ctx.frames = Context.leftover.frames ∧ ctx.handlers = Context.leftover.handlers := by
  have htrace := Config.trace_path Host.none 2 (Machine.sample.runConfig .leftover 25)
  have hcs : ∀ x ∈ (Config.path Host.none 2 (Machine.sample.runConfig .leftover 25)).1,
      ¬ x.Resets Host.none ∧ ¬ x.Ended [] := Config.calm_of_path (by decide) []
  obtain ⟨-, -, -, hend⟩ := run_confined Context.reachable_leftover
    (.outer Machine.sample .leftover 25) htrace hcs
  obtain ⟨hhandlers, hframes⟩ := hend (.ok (.raised .null)) _ (.exception .null) _ _ rfl rfl rfl
  exact ⟨Context.reachable_leftover, _, _, _, _, _, htrace, hcs, rfl, rfl, hframes .null rfl,
    hhandlers⟩

end StackVM
