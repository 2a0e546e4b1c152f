import StackVM.Proofs.Machine.Blame.Choices

/-! # Where a fault is

A fault names the offset of the instruction that failed. With the built-in natives alone this is the
last instruction that was fetched, also when natives have started further runs. There is one
exception: if no frame is left for a closure that a native calls, the fault names the entry of the
closure, though nothing was fetched there.
-/
namespace StackVM
namespace Config
variable {c d : Config} {cs : List Config} {ip pos next count : Nat} {base : Base}
  {p : List Pending} {s : State} {f : Fault}

theorem Unfolds.tracks {callee : Function} {works rest : List Pending}
    (h : Unfolds (works ++ .call base pos next count callee :: rest) d)
    (hworks : ∀ w ∈ works, w.IsPassive) (hroomy : Roomy cs) (hlast : lastFetched? cs = some pos) :
    Tracks cs d := by
  obtain ⟨control, p, s⟩ := d
  obtain ⟨more, rfl, hopen, hmore⟩ := h
  rw [← List.append_assoc]
  refine .choosing _ hroomy hopen ?_ hlast
  intro w hw
  rcases List.mem_append.mp hw with hw | hw
  · exact (hmore w hw).1
  · exact hworks w hw

theorem Unfolds.awaits (h : Unfolds p d) (hp : ∀ w ∈ p, w.AwaitsCall) : d.AwaitsCalls := by
  obtain ⟨works, hpending, -, hworks⟩ := h
  intro w hw
  rw [hpending] at hw
  rcases List.mem_append.mp hw with hw | hw
  · exact (hworks w hw).2
  · exact hp w hw

theorem choosing_step {control : Control} {works rest : List Pending} {callee : Function}
    (hroomy : Roomy cs) (hopen : control.IsOpen) (hworks : ∀ w ∈ works, w.IsPassive)
    (hlast : lastFetched? cs = some pos)
    (hc : c = ⟨control, works ++ .call base pos next count callee :: rest, s⟩)
    (hcalls : c.AwaitsCalls) (h : step Host.none c = some d) : Tracks (cs ++ [c]) d := by
  have hlast' : lastFetched? (cs ++ [c]) = some pos := by
    rw [lastFetched?_concat, ← hlast]
    subst hc
    cases control with
    | run => exact hopen.elim
    | dispatch | dispatched | exited => rfl
  subst hc
  cases control with
  | run | exited => exact hopen.elim
  | dispatch f args =>
    cases h
    refine (unfolds_dispatch f args _ s).tracks hworks (hroomy.concat fun r hr => ?_) hlast'
    simpa using hr.1
  | dispatched result =>
    cases result with
    | error f => exact hopen.elim
    | ok chosen =>
      cases works with
      | nil =>
        cases h
        refine proceed_tracks (finishCall_names callee chosen) (hroomy.concat fun r hr => ?_) hlast'
        simpa using hr.2.1
      | cons w works =>
        obtain ⟨hw, hworks⟩ := List.forall_mem_cons.mp hworks
        have hcall : w.AwaitsCall := hcalls w (by simp)
        rcases deliver_passive hw hcall h with
          ⟨hunfolds, hnew⟩ | ⟨⟨b, ip, _, f, hcontrol, -⟩, hnew⟩ |
          ⟨r, hr, -, hcontrol⟩
        · exact hunfolds.tracks hworks (hroomy.concat hnew) hlast'
        · obtain ⟨_, p, t⟩ := d
          cases hcontrol
          exact .running (hroomy.concat hnew)
        · exact .doomed (.inr hcontrol) (hr.blames hroomy hlast')

theorem answered_step {result : MethodResult} (hroomy : Roomy cs)
    (hresult : ∀ why, result ≠ .failed why) (hroom : s.context.sp ≤ Capacity.stack)
    (hcalls : AwaitsCalls ⟨.dispatched (.ok (.settled result)), p, s⟩)
    (h : step Host.none ⟨.dispatched (.ok (.settled result)), p, s⟩ = some d) : Tracks cs d := by
  cases p with
  | nil => cases h
  | cons w p =>
    cases w with
    | nested => rcases result with _ | _ | _ <;> cases h
    | call =>
      cases h
      exact finishCall_tracks hroomy hroom _ result
    | overloads older missing args =>
      cases result with
      | failed why => exact absurd rfl (hresult why)
      | ok | exception =>
        cases h
        exact .answered hroomy hresult
    | native args resume =>
      obtain ⟨f, rfl⟩ := hcalls _ List.mem_cons_self
      cases h
      rw [act_afterCall]
      cases result with
      | failed why => exact absurd rfl (hresult why)
      | ok | exception => exact .answered hroomy hresult

theorem ended_step {e : Exit} (hroomy : Roomy cs) (hhalted : ∀ v, e ≠ .halted v)
    (hcalls : AwaitsCalls ⟨.exited (.ok e), p, s⟩)
    (h : step Host.none ⟨.exited (.ok e), p, s⟩ = some d) : Tracks cs d := by
  cases p with
  | nil => cases h
  | cons w p =>
    cases w with
    | call | overloads | native => cases h
    | nested base savedSp entry resume =>
      obtain ⟨f, rfl⟩ := hcalls _ List.mem_cons_self
      cases e with
      | halted v => exact absurd rfl (hhalted v)
      | returned | raised =>
        cases h
        exact .answered hroomy nofun

/-- Everyone who waits for a result passes the fault on as it is. -/
theorem doomed_step (hc : c.control = .exited (.error f) ∨ c.control = .dispatched (.error f))
    (hcalls : c.AwaitsCalls) (h : step Host.none c = some d) :
    d.control = .exited (.error f) ∨ d.control = .dispatched (.error f) := by
  obtain ⟨control, p, s⟩ := c
  rcases hc with hc | hc
  · cases hc
    cases p with
    | nil => cases h
    | cons w p =>
      cases w with
      | call | overloads | native => cases h
      | nested base savedSp entry resume =>
        obtain ⟨callee, rfl⟩ := hcalls _ List.mem_cons_self
        cases h
        exact .inr rfl
  · cases hc
    cases p with
    | nil => cases h
    | cons w p =>
      cases w with
      | nested => cases h
      | call =>
        cases h
        exact .inl rfl
      | overloads =>
        cases h
        exact .inr rfl
      | native args resume =>
        obtain ⟨callee, rfl⟩ := hcalls _ List.mem_cons_self
        cases h
        exact .inr rfl

theorem step_tracks (ht : Tracks cs c) (hroom : c.state.context.sp ≤ Capacity.stack)
    (hhalted : ∀ v, c.control ≠ .exited (.ok (.halted v))) (hcalls : c.AwaitsCalls)
    (h : step Host.none c = some d) : Tracks (cs ++ [c]) d := by
  cases ht with
  | running hroomy =>
    cases h
    exact fetch_tracks hroomy _ _ _ _
  | choosing works hroomy hopen hworks hlast =>
    exact choosing_step hroomy hopen hworks hlast rfl hcalls h
  | answered hroomy hresult =>
    exact answered_step (hroomy.concat fun r hr => by simpa using hr.1) hresult hroom hcalls h
  | ended hroomy =>
    exact ended_step (hroomy.concat fun r hr => by simpa using hr.1)
      (fun v hv => hhalted v (by rw [hv])) hcalls h
  | doomed hc hblames =>
    refine .doomed (doomed_step hc hcalls h) (hblames.concat ?_ fun r hr => ?_)
    · rcases hc with hc | hc <;> rw [fetching?, hc]
    · rcases hc with hc | hc <;> cases hc.symm.trans hr.1

theorem proceed_awaits (hp : ∀ w ∈ p, w.AwaitsCall) (r : EStateM.Result Fault State Step) :
    (proceed base pos next p r).AwaitsCalls := by
  unfold proceed
  split
  · exact hp
  · exact hp
  · exact hp
  · exact hp
  · split <;> exact hp
  · exact List.forall_mem_cons.mpr ⟨trivial, hp⟩

theorem pending_afterCall (f : Function) (answer : Except Fault MethodResult) (p : List Pending)
    (s : State) : (act p (Builtin.afterCall (.func f) answer s) s).pending = p := by
  cases answer with
  | error g => rfl
  | ok result => rw [act_afterCall]

theorem deliver_awaits {result : Except Fault Dispatch} {w : Pending} (hw : w.AwaitsCall)
    (hp : ∀ w ∈ p, w.AwaitsCall) (h : deliver result w p s = some d) : d.AwaitsCalls := by
  cases result with
  | ok chosen =>
    cases w with
    | call base pos next count callee =>
      cases h
      exact proceed_awaits hp _
    | nested => rcases chosen with (_ | _ | _) | _ <;> cases h
    | overloads | native =>
      rcases deliver_passive (by trivial) hw h with ⟨hunfolds, -⟩ | ⟨⟨_, _, _, f, -, hpending⟩, -⟩ |
        ⟨_, -, hpending, -⟩
      · exact hunfolds.awaits hp
      · intro v hv
        rw [hpending] at hv
        exact List.forall_mem_cons.mpr ⟨⟨f, rfl⟩, hp⟩ v hv
      · intro v hv
        rw [hpending] at hv
        exact hp v hv
  | error f =>
    cases w with
    | call | overloads =>
      cases h
      exact hp
    | nested => cases h
    | native args resume =>
      obtain ⟨callee, rfl⟩ := hw
      cases h
      exact hp

theorem step_awaits (hcalls : c.AwaitsCalls) (h : step Host.none c = some d) : d.AwaitsCalls := by
  obtain ⟨control, p, s⟩ := c
  cases control with
  | run base ip =>
    cases h
    unfold fetch
    split
    · exact hcalls
    · exact proceed_awaits hcalls _
  | dispatch callee args =>
    cases h
    exact (unfolds_dispatch callee args p s).awaits hcalls
  | dispatched result =>
    cases p with
    | nil => cases h
    | cons w p =>
      obtain ⟨hw, hp⟩ := List.forall_mem_cons.mp hcalls
      exact deliver_awaits hw hp h
  | exited result =>
    cases p with
    | nil => cases h
    | cons w p =>
      obtain ⟨hw, hp⟩ := List.forall_mem_cons.mp hcalls
      cases w with
      | call | overloads | native => cases h
      | nested base savedSp entry resume =>
        obtain ⟨f, rfl⟩ := hw
        cases h
        unfold AwaitsCalls
        rw [pending_afterCall]
        exact hp

theorem Layers.not_halted {fs : List Frame} {before : Context} {v : Value}
    (h : c.Layers [] (Layer [] base fs before) []) (hpending : c.pending ≠ []) :
    c.control ≠ .exited (.ok (.halted v)) := by
  intro hcontrol
  obtain ⟨q, hq, h⟩ := h
  rw [List.append_nil] at hq
  rw [hcontrol, ← hq] at h
  cases hp : c.pending with
  | nil => exact hpending hp
  | cons w p =>
    rw [hp] at h
    cases w with
    | call | overloads | native => exact h
    | nested b savedSp entry resume =>
      obtain ⟨_, _, hnested, -, -, -, ⟨houter, -⟩, -⟩ := layered_nested.mp h
      simp [houter] at hnested

/-- The invariant of runs with the built-in natives. -/
theorem Trace.tracks {m : Machine} {ctx : Context} {entry : Nat}
    (htrace : Trace Host.none (m.runConfig ctx entry) cs c) (hroom : ctx.sp ≤ Capacity.stack) :
    Tracks cs c := by
  have hcalm : ∀ x ∈ cs, ¬ x.Resets Host.none := fun x hx =>
    Passes.not_resets (htrace.passes (List.forall_mem_nil _) x hx)
  have hcs : ∀ x ∈ cs, ¬ x.Resets Host.none ∧ ¬ x.Ended [] := fun x hx =>
    ⟨hcalm x hx, htrace.not_ended hx⟩
  have hside : ∀ x ∈ cs, x.state.context.sp ≤ Capacity.stack ∧
      ∀ v, x.control ≠ .exited (.ok (.halted v)) := by
    intro x hx
    obtain ⟨fs, -, hsp, hlayers⟩ := (Begins.outer m ctx entry).layers_of_mem hroom htrace hcs hx
    refine ⟨hsp, fun v hv => hlayers.not_halted ?_ hv⟩
    intro hpending
    exact (hcs x hx).2 ⟨hpending, _, hv⟩
  refine (htrace.induct (I := fun xs x => Tracks xs x ∧ x.AwaitsCalls)
    ⟨.running (List.forall_mem_nil _), List.forall_mem_nil _⟩ hside ?_).1
  rintro xs x y ⟨hsp, hhalted⟩ ⟨htracks, hcalls⟩ hstep
  exact ⟨step_tracks htracks hsp hhalted hcalls hstep, step_awaits hcalls hstep⟩

end Config

/-- With the built-in natives alone, a fault names the last instruction that was fetched, whose
fetching or execution failed, however deep in nested runs. Only a fault that a native causes by
calling a closure that no frame is left for names the entry of that closure instead. -/
theorem fault_position {m m' : Machine} {ctx ctx' : Context} {entry : Nat} {cs : List Config}
    {f : Fault} (hctx : ctx.Reachable Host.none)
    (hruns : m.Runs Host.none ctx entry cs (.error f) m' ctx') :
    ∃ ip, Config.lastFetched? cs = some ip ∧
      ((∀ y ∈ cs, ∀ r, ¬ y.Crowded r) → f.pos = ip) ∧
      ∀ y ∈ cs, ∀ r, y.Crowded r →
        f = ⟨(y.state.machine.store.closure r).entry, .frameOverflow⟩ := by
  obtain ⟨c, exit, s, htrace, hresult, hfinish⟩ := hruns
  obtain ⟨hcontrol, hpending, rfl⟩ := Config.control_of_result? hresult
  obtain rfl : exit = .error f := by
    cases exit with
    | error g =>
      cases hfinish
      rfl
    | ok e => cases e <;> cases hfinish
  cases htrace.tracks hctx.sp_le with
  | running | answered | ended => cases hcontrol
  | choosing works _ hopen =>
    dsimp only at hcontrol
    subst hcontrol
    exact hopen.elim
  | @doomed _ ip g hc hblames =>
    rcases hc with hc | hc
    · cases hc.symm.trans hcontrol
      exact ⟨ip, hblames.fetched, hblames.names, hblames.crowded⟩
    · cases hc.symm.trans hcontrol

/-- Code that lets a native call a function, which at 11 removes a handler that is not there. -/
def Machine.stumbling : Machine := (Machine.init []).load
  (([⟨.makeClosure, (⟨6, 0, 0⟩ : EntryPoint)⟩, ⟨.fetchGlobal, (23 : UInt16)⟩,
    ⟨.call, (1 : UInt8)⟩, ⟨.halt, ()⟩, ⟨.tryEnd, ()⟩] : List Instr).flatMap Instr.bytes).toArray

theorem fault_position_stumbling :
    Context.new.Reachable Host.none ∧
    ∃ cs m' ctx', Machine.stumbling.Runs Host.none .new 0 cs (.error ⟨11, .unbalancedTry⟩) m' ctx' ∧
      (∀ y ∈ cs, ∀ r, ¬ y.Crowded r) ∧ Config.lastFetched? cs = some 11 := by
  have hout : ((Config.path Host.none 20 (Machine.stumbling.runConfig .new 0)).2.result?.map
      fun out => Machine.finish 0 out.1 out.2).map (·.1) = some (.error ⟨11, .unbalancedTry⟩) := by
    decide +kernel
  obtain ⟨⟨result, m', ctx'⟩, hfinish, rfl⟩ := Option.map_eq_some_iff.mp hout
  obtain ⟨⟨exit, s⟩, hresult, hfinish⟩ := Option.map_eq_some_iff.mp hfinish
  have hruns : Machine.stumbling.Runs Host.none .new 0
      (Config.path Host.none 20 (Machine.stumbling.runConfig .new 0)).1
      (.error ⟨11, .unbalancedTry⟩) m' ctx' :=
    ⟨_, exit, s, Config.trace_path Host.none 20 _, hresult, hfinish⟩
  have hshallow : ∀ y ∈ (Config.path Host.none 20 (Machine.stumbling.runConfig .new 0)).1,
      y.state.context.depth < Capacity.frames := by decide +kernel
  have hroomy : ∀ y ∈ (Config.path Host.none 20 (Machine.stumbling.runConfig .new 0)).1,
      ∀ r, ¬ y.Crowded r := fun y hy r hr => Nat.not_le_of_lt (hshallow y hy) hr.2.2
  obtain ⟨ip, hlast, hpos, -⟩ := fault_position .new hruns
  cases hpos hroomy
  exact ⟨.new, _, m', ctx', hruns, hroomy, hlast⟩

/-- A function at 8 that lets a native call it again, until no frame is left. -/
def Machine.descending : Machine := (Machine.init []).load
  (([⟨.makeClosure, (⟨3, 0, 0⟩ : EntryPoint)⟩, ⟨.storeGlobal, (0 : UInt16)⟩,
    ⟨.fetchGlobal, (0 : UInt16)⟩, ⟨.fetchGlobal, (23 : UInt16)⟩, ⟨.call, (1 : UInt8)⟩,
    ⟨.halt, ()⟩] : List Instr).flatMap Instr.bytes).toArray

/-- The call at 14 fails for want of a frame, but the fault names the function at 8. -/
theorem frame_overflow_misplaced :
    ∃ cs m' ctx', Machine.descending.Runs Host.none .new 0 cs (.error ⟨8, .frameOverflow⟩) m' ctx' ∧
      Config.lastFetched? cs = some 14 ∧
      Machine.descending.program.decodeAt 14 = .ok (⟨.call, (1 : UInt8)⟩, 16) := by
  have hout : (fun out : List Config × Config => (Config.lastFetched? out.1,
      (out.2.result?.map fun ended => Machine.finish 0 ended.1 ended.2).map (·.1)))
        (Config.path Host.none 651 (Machine.descending.runConfig .new 0)) =
      (some 14, some (.error ⟨8, .frameOverflow⟩)) := by decide +kernel
  obtain ⟨hlast, hends⟩ := Prod.mk.inj hout
  obtain ⟨⟨result, m', ctx'⟩, hfinish, rfl⟩ := Option.map_eq_some_iff.mp hends
  obtain ⟨⟨exit, s⟩, hresult, hfinish⟩ := Option.map_eq_some_iff.mp hfinish
  exact ⟨_, m', ctx', ⟨_, exit, s, Config.trace_path Host.none 651 _, hresult, hfinish⟩, hlast,
    by decide +kernel⟩

end StackVM
