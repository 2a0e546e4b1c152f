import StackVM.Proofs.Machine.Stretch

/-! # Calls and their returns

A call that enters a closure pushes a frame with the offset to go on at and the height of the stack
below the callee. Whatever the body does, the return of that frame puts the caller back where the
call left it: its frames, its handlers, and a stack with the result in place of the callee and its
arguments. The values below are the same if the body took none of them.
-/
namespace StackVM.Config
variable {host : Host} {before : Context} {base : Base} {rest : List Pending} {s : State}
  {start e c d : Config} {cs cs₀ : List Config} {next count : Nat}

/-- The run over this pending work executes a call instruction at the first configuration, and a
frame for the closure that its dispatch chose, by way of the listed configurations, is there in the
last one. The given state is the one in which the frame is pushed. -/
inductive Enters (host : Host) (base : Base) (rest : List Pending) :
    Config → (count next : Nat) → List Config → State → Config → Prop
  | closure {pos next : Nat} {count : UInt8} {callee : Function} {args : List Value}
      {r : ClosureRef} {cs : List Config} {s s₀ s₁ : State} {e : Config} :
      s₀.machine.program.decodeAt pos = .ok (⟨.call, count⟩, next) →
      step host ⟨.run base pos, rest, s₀⟩ =
        some ⟨.dispatch callee args, .call base pos next count.toNat callee :: rest, s₁⟩ →
      Trace host ⟨.dispatch callee args, .call base pos next count.toNat callee :: rest, s₁⟩ cs
        ⟨.dispatched (.ok (.enter r)), .call base pos next count.toNat callee :: rest, s⟩ →
      (∀ x ∈ cs, rest.length < x.pending.length) →
      step host ⟨.dispatched (.ok (.enter r)), .call base pos next count.toNat callee :: rest, s⟩ =
        some e →
      s.context.depth < e.state.context.depth →
      Enters host base rest ⟨.run base pos, rest, s₀⟩ count.toNat next cs s e

theorem Enters.frame (h : Enters host base rest c count next cs s e) :
    count < s.context.sp ∧ ∃ ip, ∃ f : Frame, e.control = .run base ip ∧ e.pending = rest ∧
      f.returnIp = next ∧ f.savedSp = s.context.sp - (count + 1) ∧
      e.state.context =
        ⟨s.context.stack.drop (count + 1), f :: s.context.frames, s.context.handlers⟩ := by
  cases h with
  | @closure pos next count callee args r _ _ _ _ _ _ _ _ _ hstep hdeeper =>
    unfold step deliver finishCall at hstep
    dsimp only at hstep
    cases hres : enter pos next count.toNat r s with
    | error fault t =>
      rw [hres] at hstep
      cases hstep
      rw [enter_eq_error hres] at hdeeper
      exact absurd hdeeper (Nat.lt_irrefl _)
    | ok step t =>
      obtain ⟨rfl, hcount, -, f, hreturn, hsaved, ht⟩ := enter_eq_ok hres
      rw [hres] at hstep
      cases hstep
      exact ⟨hcount, _, f, rfl, rfl, hreturn, hsaved, ht⟩

/-- The dispatch of a call finds the frames and the handlers as they were and no more values. -/
theorem Enters.shrinks {kept : List Value} (h : Enters host base rest c count next cs s e)
    (hroom : c.state.context.sp ≤ Capacity.stack) (hcalm : ∀ x ∈ cs, ¬ x.Resets host)
    (hstack : kept <:+ c.state.context.stack)
    (hkept : ∀ x ∈ cs, ∀ p < kept.length, ¬ x.Removes p) :
    kept <:+ s.context.stack ∧ c.state.context.Shrinks kept s.context := by
  cases h with
  | closure hdecode hinvoke hchoice hwaits =>
    cases moves_of_step hinvoke (calm_of_isQuiet rfl host rest).1 hroom with
    | invoke =>
      have hlayers := hchoice.waits (k := _) hroom ⟨[_], rfl, rfl, hstack, .refl kept _⟩ hcalm hkept
        hwaits (Nat.lt_succ_self _)
      exact (hlayers.performs .finish).2

theorem Enters.floor (h : Enters host base start.pending c count next cs s e)
    (hbefore : before.Reachable host) (hstart : Begins before base start)
    (hrun : Trace host start cs₀ c)
    (hcs₀ : ∀ x ∈ cs₀, ¬ x.Resets host ∧ ¬ x.Ended start.pending)
    (hcs : ∀ x ∈ cs, ¬ x.Resets host) :
    c.state.context.sp ≤ Capacity.stack ∧ e.state.context.sp ≤ Capacity.stack ∧
      ∃ fs, base.Floor before fs ∧ s.context.Over [] fs before.handlers := by
  obtain ⟨_, -, hroom, -⟩ := hstart.layers hbefore.sp_le hrun hcs₀
  cases h with
  | closure _ hinvoke hchoice hwaits hstep =>
    obtain ⟨fs, hfloor, hsp, hlayers⟩ := hstart.layers hbefore.sp_le
      (hrun.append (.cons hinvoke hchoice)) fun x hx => by
        rcases List.mem_append.mp hx with hx | hx
        · exact hcs₀ x hx
        rcases List.mem_cons.mp hx with rfl | hx
        · exact calm_of_isQuiet rfl host _
        · refine ⟨hcs x hx, fun hended => ?_⟩
          have hlt := hwaits x hx
          rw [hended.1] at hlt
          exact Nat.lt_irrefl _ hlt
    exact ⟨hroom, step_sp_le hstep hsp, fs, hfloor, (hlayers.performs .finish).2⟩

theorem step_ret (hret : c.Performs base rest .ret) (h : step host c = some d)
    (hroom : c.state.context.sp ≤ Capacity.stack)
    (hpop : d.state.context.depth < c.state.context.depth) :
    ∃ v below f frames, c.state.context.stack = v :: below ∧ c.state.context.frames = f :: frames ∧
      f.savedSp ≤ below.length ∧ d.pending = rest ∧ d.state.context.frames = frames ∧
      (¬ (base.nested = true ∧ frames.length = base.frames) →
        d.control = .run base f.returnIp ∧
        d.state.context = ⟨v :: keepOldest f.savedSp below, frames,
          Exec.dropHandlers base.handlers c.state.context.depth c.state.context.handlers⟩) := by
  obtain ⟨ip, next, ⟨op, x⟩, s, rfl, hdecode, hop⟩ := hret.fetched (by simp)
  cases hop
  rw [step_run hdecode] at h
  cases hres : Exec.instr base ip next ⟨.ret, x⟩ s with
  | error fault t =>
    cases (Exec.instr_atomic hroom base ip next ⟨.ret, x⟩).error hres
    rw [hres] at h
    cases h
    exact absurd hpop (Nat.lt_irrefl _)
  | ok step t =>
    obtain ⟨v, below, f, frames, hstack, hframes, hsaved, -, hcase⟩ := Exec.ret_eq_ok hres
    rw [hres] at h
    rcases hcase with ⟨hnested, hlast, rfl, ht⟩ | ⟨hgoes, rfl, ht⟩
    · cases h
      exact ⟨v, below, f, frames, hstack, hframes, hsaved, rfl, congrArg Context.frames ht,
        fun hgoes => absurd ⟨hnested, hlast⟩ hgoes⟩
    · cases h
      exact ⟨v, below, f, frames, hstack, hframes, hsaved, rfl, congrArg Context.frames ht,
        fun _ => ⟨rfl, ht⟩⟩

theorem step_ret_floor {kept : List Value} {f : Frame} {fs : List Frame} {hs : List Handler}
    (hover : c.state.context.Over kept (f :: fs) hs) (hret : c.Performs base rest .ret)
    (h : step host c = some d) (hroom : c.state.context.sp ≤ Capacity.stack)
    (hdepth : fs.length < c.state.context.depth) (hpop : d.state.context.depth = fs.length)
    (hbase : base.handlers ≤ hs.length)
    (hold : ∀ e rest, hs = e :: rest → base.handlers ≤ rest.length → e.frames ≤ fs.length)
    (hinner : ¬ (base.nested = true ∧ fs.length = base.frames)) :
    ∃ v below, c.state.context.stack = v :: below ∧ f.savedSp ≤ below.length ∧
      d.control = .run base f.returnIp ∧ d.pending = rest ∧
      d.state.context = ⟨v :: keepOldest f.savedSp below, fs, hs⟩ := by
  rw [← hpop] at hdepth
  obtain ⟨v, below, f', frames, hstack, hframes, hsaved, hpending, hd, hruns⟩ :=
    step_ret hret h hroom hdepth
  have hlength : frames.length = fs.length := by
    rw [← hpop, Context.depth, hd]
  have heq : f :: fs = f' :: frames := by
    refine (hframes ▸ hover.frames_suffix).eq_of_length ?_
    rw [List.length_cons, List.length_cons, hlength]
  cases heq
  obtain ⟨hcontrol, hcontext⟩ := hruns hinner
  refine ⟨v, below, hstack, hsaved, hcontrol, hpending, ?_⟩
  obtain ⟨new, hnew, hdescends⟩ := hover.handlers
  have htop : c.state.context.depth = (f :: fs).length := by rw [Context.depth, hframes]
  rw [hcontext, hnew, htop]
  rw [htop] at hdescends
  congr 1
  refine (dropHandlers_floor hdescends hbase).trans (dropHandlers_eq_self ?_)
  intro e rest heq hle
  exact Nat.lt_succ_of_le (hold e rest heq hle)

end StackVM.Config

namespace StackVM

/-- The return of the frame that a call pushed restores the caller: it goes on after the call, with
its frames and its handlers, and with the result in place of the callee and the arguments. The
values below the callee are the same if the body took none of them. (They were there before the
dispatch too, unless a native that took part in it and declined ran code that took some.) -/
theorem call_bracketed {host : Host} {before : Context} {base : Base} {start c₀ e c d : Config}
    {cs₀ cs₁ cs : List Config} {count next : Nat} {s : State}
    (hbefore : before.Reachable host) (hstart : Config.Begins before base start)
    (hrun : Config.Trace host start cs₀ c₀)
    (hcs₀ : ∀ x ∈ cs₀, ¬ x.Resets host ∧ ¬ x.Ended start.pending)
    (henters : Config.Enters host base start.pending c₀ count next cs₁ s e)
    (hcs₁ : ∀ x ∈ cs₁, ¬ x.Resets host) (hbody : Config.Trace host e cs c)
    (hcs : ∀ x ∈ cs, ¬ x.Resets host ∧ ¬ x.Ended start.pending)
    (hactive : ∀ x ∈ cs, s.context.depth < x.state.context.depth)
    (hret : c.Performs base start.pending .ret) (hstep : Config.step host c = some d)
    (hown : s.context.depth < c.state.context.depth)
    (hpop : d.state.context.depth = s.context.depth) :
    d.control = .run base next ∧ d.pending = start.pending ∧
    d.state.context.frames = c₀.state.context.frames ∧
    d.state.context.handlers = c₀.state.context.handlers ∧
    d.state.context.sp = s.context.sp - count ∧
    ((∀ x ∈ cs₁, ∀ p < c₀.state.context.sp, ¬ x.Removes p) →
      s.context.stack = c₀.state.context.stack) ∧
    ∃ v below, c.state.context.stack.head? = some v ∧ d.state.context.stack = v :: below ∧
      ((∀ x ∈ cs, ∀ p < s.context.sp - (count + 1), ¬ x.Removes p) →
        below = s.context.stack.drop (count + 1)) := by
  obtain ⟨hroom, hfirst, fs₀, hfloor, hover₀⟩ := henters.floor hbefore hstart hrun hcs₀ hcs₁
  obtain ⟨hcount, ip, f, hcontrol, hpending, hreturn, hsaved, hcontext⟩ := henters.frame
  obtain ⟨-, hsame⟩ := henters.shrinks hroom hcs₁ List.nil_suffix (by simp)
  have hbase : base.handlers ≤ s.context.handlers.length := by
    rw [hfloor.handlers_eq]
    exact hover₀.handlers_suffix.length_le
  have hold : ∀ h rest, s.context.handlers = h :: rest → base.handlers ≤ rest.length →
      h.frames ≤ s.context.depth := by
    intro h rest heq hle
    rw [hfloor.handlers_eq] at hle
    obtain ⟨_, -, hframes, -⟩ := hover₀.cons_handlers heq hle
    exact hframes
  have hinner : ¬ (base.nested = true ∧ s.context.frames.length = base.frames) := by
    rintro ⟨hnested, heq⟩
    have hle := hover₀.frames_suffix.length_le
    cases hfloor with
    | outer => cases hnested
    | nested =>
      simp only [List.length_cons, heq, Context.depth] at hle
      omega
  have hstretch : ∀ kept, kept <:+ s.context.stack.drop (count + 1) →
      (∀ x ∈ cs, ∀ p < kept.length, ¬ x.Removes p) →
      c.state.context.Over kept (f :: s.context.frames) s.context.handlers := by
    intro kept hkept hremoves
    have he : e.Layers kept (Stretch kept base (f :: s.context.frames) s.context.handlers)
        start.pending := by
      refine ⟨[], hpending, ?_⟩
      rw [hcontrol, hcontext]
      exact ⟨rfl, .bottom hkept rfl rfl⟩
    have hc := hbody.stretch (R := fun k => s.context.depth < k.depth) hfirst he hcs hremoves
      hactive hown fun heffect hk hn hdepth =>
        heffect.over_of_depth hk hn hbase
          (fun h rest heq hle => Nat.lt_succ_of_le (hold h rest heq hle)) hdepth
    exact (hc.performs hret).2
  obtain ⟨v, below, hstack, hle, hd_control, hd_pending, hd⟩ :=
    Config.step_ret_floor (hstretch [] List.nil_suffix (by simp)) hret hstep
      (hbody.reaches.sp_le hfirst) hown hpop hbase hold hinner
  refine ⟨hreturn ▸ hd_control, hd_pending, ?_, ?_, ?_, ?_, v, _, ?_, by rw [hd], ?_⟩
  · rw [hd, hsame.frames]
  · rw [hd, hsame.handlers]
  · rw [hd, Context.sp, List.length_cons, length_keepOldest]
    omega
  · intro hremoves
    obtain ⟨hkept, -⟩ := henters.shrinks hroom hcs₁ List.suffix_rfl hremoves
    exact (hkept.eq_of_length_le hsame.sp).symm
  · rw [hstack, List.head?_cons]
  · intro hremoves
    have hlength : (s.context.stack.drop (count + 1)).length = f.savedSp := by
      rw [List.length_drop, hsaved, Context.sp]
    have hover := hstretch _ List.suffix_rfl (by rwa [hlength, hsaved])
    refine keepOldest_eq_of_suffix ?_ hlength
    refine List.suffix_of_suffix_length_le hover.stack (hstack ▸ List.suffix_cons v below) ?_
    rw [hlength]
    exact hle

theorem call_bracketed_sample :
    Context.leftover.Reachable Host.none ∧
    ∃ cs cs₁ s v below, Config.Enters Host.none ⟨1, 1, false⟩ [] (Config.sample 3) 0 9 cs₁ s
        (Config.sample 6) ∧
      Config.Trace Host.none (Config.sample 6) cs (Config.sample 8) ∧
      (∀ x ∈ cs, s.context.depth < x.state.context.depth) ∧
      (Config.sample 9).control = .run ⟨1, 1, false⟩ 9 ∧
      (Config.sample 9).state.context.frames = (Config.sample 3).state.context.frames ∧
      (Config.sample 9).state.context.handlers = (Config.sample 3).state.context.handlers ∧
      (Config.sample 9).state.context.stack = v :: below ∧
      below = (Config.sample 3).state.context.stack.drop 1 := by
  have hrun : Config.Trace Host.none (Machine.sample.runConfig .leftover 0) _ (Config.sample 3) :=
    Config.trace_path Host.none 3 _
  have hdecode : (Config.sample 3).state.machine.program.decodeAt 7 =
      .ok (⟨.call, (0 : UInt8)⟩, 9) := rfl
  have henters : Config.Enters Host.none ⟨1, 1, false⟩ [] (Config.sample 3) 0 9
      (Config.path Host.none 1 (Config.sample 4)).1 (Config.sample 5).state (Config.sample 6) :=
    .closure hdecode rfl (Config.trace_path Host.none 1 (Config.sample 4)) (by decide) rfl
      (by decide)
  have hcalm : ∀ x ∈ (Config.path Host.none 1 (Config.sample 4)).1, ¬ x.Resets Host.none :=
    fun x hx => (Config.calm_of_path (by decide) [] x hx).1
  have hbody : Config.Trace Host.none (Config.sample 6) _ (Config.sample 8) :=
    Config.trace_path Host.none 2 _
  have hstep : Config.step Host.none (Config.sample 8) = some (Config.sample 9) := rfl
  have hret : (Config.sample 8).Performs ⟨1, 1, false⟩ [] .ret :=
    .fetch (i := ⟨.ret, ()⟩) (s := (Config.sample 8).state) rfl
  have hactive : ∀ x ∈ (Config.path Host.none 2 (Config.sample 6)).1,
      (Config.sample 5).state.context.depth < x.state.context.depth := by decide
  obtain ⟨hcontrol, -, hframes, hhandlers, -, hsame, v, below, -, hstack, hbelow⟩ :=
    call_bracketed Context.reachable_leftover (.outer Machine.sample .leftover 0) hrun
      (Config.calm_of_path (by decide) _) henters hcalm hbody (Config.calm_of_path (by decide) _)
      hactive hret hstep (by decide) (by decide)
  refine ⟨Context.reachable_leftover, _, _, _, v, below, henters, hbody, hactive, hcontrol, hframes,
    hhandlers, hstack, ?_⟩
  rw [← hsame (by decide)]
  exact hbelow (by decide)

end StackVM
