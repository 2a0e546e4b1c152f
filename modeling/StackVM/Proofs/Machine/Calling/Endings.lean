import StackVM.Proofs.Machine.Calling.Instruction

/-! # How calls end

Two calls end alike if they go on after the instruction with the same value, or the same exception
goes to the same handler or leaves the run.
-/
namespace StackVM

/-- The run has everything that it found below it, and its handlers were installed no deeper than it
is. -/
structure Base.Stands (c : Context) (base : Base) : Prop where
  frames : base.frames ≤ c.depth
  inner : ¬ (base.nested = true ∧ c.depth = base.frames)
  handlers : base.handlers ≤ c.handlerCount
  outside : ∀ h rest, c.handlers = h :: rest → base.handlers ≤ rest.length → h.frames ≤ c.depth

/-- The configurations differ in nothing but the values on the stack. -/
structure Config.SameButStack (d d' : Config) : Prop where
  control : d'.control = d.control
  pending : d'.pending = d.pending
  machine : d'.state.machine = d.state.machine
  frames : d'.state.context.frames = d.state.context.frames
  handlers : d'.state.context.handlers = d.state.context.handlers

/-- The two calls end alike with the next steps. Either none of them raises an exception, and both
go on after their call instruction, with the same value in place of the callee and the arguments
and with everything else the same; or both raise the same exception, with the same handlers of the
run to give it to, and go on or end alike. -/
inductive Config.EndAlike (base : Base) (rest : List Pending) (below : Context) (next next' : Nat)
    (z d z' d' : Config) : Prop
  | returns (v : Value) (m : Machine) : (∀ w s, ¬ z.Raises base rest w s) →
      (∀ w s, ¬ z'.Raises base rest w s) → d = ⟨.run base next, rest, ⟨m, below.pushing v⟩⟩ →
      d' = ⟨.run base next', rest, ⟨m, below.pushing v⟩⟩ →
      EndAlike base rest below next next' z d z' d'
  | raises (v : Value) (s s' : State) : z.Raises base rest v s → z'.Raises base rest v s' →
      s'.context.handlers = s.context.handlers → d.SameButStack d' →
      EndAlike base rest below next next' z d z' d'

theorem keepOldest_eq_of_le {α : Type} {n : Nat} {xs ys : List α} (h : ys <:+ xs)
    (hn : n ≤ ys.length) : keepOldest n xs = keepOldest n ys := by
  obtain ⟨new, rfl⟩ := h
  have hlength : (new ++ ys).length - n = new.length + (ys.length - n) := by
    rw [List.length_append]
    omega
  rw [keepOldest, keepOldest, hlength, ← List.drop_drop, List.drop_left]

/-- The same exception is given to the same handler, from inside a call and from the call itself. -/
theorem Config.proceed_raise {base : Base} {m : Machine} {below inside : Context} {v : Value}
    {rest : List Pending} (hstands : base.Stands below) (hbelow : below.sp < Capacity.stack)
    (hinside : inside.sp < Capacity.stack) (hframes : below.frames <:+ inside.frames)
    (hhandlers : inside.handlers = below.handlers) (pos next pos' next' : Nat) :
    (proceed base pos next rest (.ok (.raise v) ⟨m, inside⟩)).SameButStack
      (proceed base pos' next' rest (.ok (.raise v) ⟨m, below⟩)) := by
  have hsame : Exec.ownHandler? base inside = Exec.ownHandler? base below := by
    unfold Exec.ownHandler? Context.handlerCount
    rw [hhandlers]
  cases hown : Exec.ownHandler? base below with
  | none =>
    rw [proceed_uncaught (hsame.trans hown), proceed_uncaught hown]
    refine ⟨rfl, rfl, rfl, ?_, ?_⟩
    · rw [Context.frames_abandon, Context.frames_abandon]
      exact (keepOldest_eq_of_le hframes hstands.frames).symm
    · rw [Context.handlers_abandon, Context.handlers_abandon, hhandlers]
  | some h =>
    rw [proceed_caught (hsame.trans hown) hinside, proceed_caught hown hbelow]
    obtain ⟨hs, heq, hle⟩ := Exec.ownHandler?_eq_some_iff.mp hown
    refine ⟨rfl, rfl, rfl, ?_, by rw [hhandlers]⟩
    exact (keepOldest_eq_of_le hframes (hstands.outside h hs heq hle)).symm

theorem Config.Raises.alike {host : Host} {base : Base} {rest : List Pending} {below : Context}
    {next next' : Nat} {z d z' : Config} {v : Value} {s : State}
    (hz : z.Raises base rest v s) (hstands : base.Stands below) (hbelow : below.sp < Capacity.stack)
    (hstep : Config.step host z = some d) (hinside : s.context.sp < Capacity.stack)
    (hframes : below.frames <:+ s.context.frames) (hhandlers : s.context.handlers = below.handlers)
    (hz' : z'.Raises base rest v ⟨s.machine, below⟩) :
    ∃ d', Config.step host z' = some d' ∧ EndAlike base rest below next next' z d z' d' := by
  obtain ⟨_, _, hd⟩ := hz.step host
  obtain ⟨_, _, hd'⟩ := hz'.step host
  cases hd.symm.trans hstep
  refine ⟨_, hd', .raises v s _ hz hz' hhandlers.symm ?_⟩
  exact proceed_raise hstands hbelow hinside hframes hhandlers _ _ _ _

theorem Config.proceed_raise_le {base : Base} {s : State} {v : Value} {rest : List Pending}
    {pos next : Nat} (hroom : s.context.sp < Capacity.stack) :
    (proceed base pos next rest (.ok (.raise v) s)).pending = rest ∧
      (proceed base pos next rest (.ok (.raise v) s)).state.context.depth ≤ s.context.depth := by
  cases hown : Exec.ownHandler? base s.context with
  | none =>
    rw [proceed_uncaught hown]
    refine ⟨rfl, ?_⟩
    rw [Context.depth, Context.frames_abandon]
    exact (keepOldest_suffix _ _).length_le
  | some h =>
    rw [proceed_caught hown hroom]
    exact ⟨rfl, (keepOldest_suffix _ _).length_le⟩

namespace Config
variable {host : Host} {before below : Context} {base : Base} {m : Machine} {callee : Value}
  {args : List Value} {next next' : Nat} {start c c' d d' z z' : Config} {cs : List Config}
  {rest : List Pending}

theorem Calling.pending_eq (h : c.Calling base rest below m callee args next) :
    c.pending = rest := by
  cases h
  rfl

theorem Calling.depth_eq (h : c.Calling base rest below m callee args next) :
    c.state.context.depth = below.depth := by
  cases h
  rfl

/-- A run that no native has deprived of what it found stands on it. -/
theorem Calling.stands (hcalls : c.Calling base start.pending below m callee args next)
    (hbefore : before.Reachable host) (hstart : Begins before base start)
    (hrun : Trace host start cs c)
    (hcs : ∀ x ∈ cs, ¬ x.Resets host ∧ ¬ x.Ended start.pending) :
    base.Stands below ∧ c.state.context.sp ≤ Capacity.stack ∧ below.sp < Capacity.stack := by
  obtain ⟨fs, hfloor, hroom, hlayers⟩ := hstart.layers hbefore.sp_le hrun hcs
  obtain @⟨pos, next, count, callee, args, hdecode, hcount⟩ := hcalls
  have hover := (hlayers.performs (.fetch hdecode)).2
  refine ⟨⟨?_, ?_, ?_, ?_⟩, hroom, ?_⟩
  · rw [hfloor.frames_eq]
    exact (hfloor.suffix.trans hover.frames_suffix).length_le
  · rintro ⟨hnested, heq⟩
    have hle := hover.frames_suffix.length_le
    cases hfloor with
    | outer => cases hnested
    | nested =>
      have hlt : before.depth < below.depth := hle
      exact Nat.ne_of_gt hlt heq
  · rw [hfloor.handlers_eq]
    exact hover.handlers_suffix.length_le
  · intro h rest heq hle
    rw [hfloor.handlers_eq] at hle
    obtain ⟨_, -, hframes, -⟩ := hover.cons_handlers heq hle
    exact hframes
  · rw [Context.sp_calling] at hroom
    omega

theorem EndAlike.not_inCall (h : EndAlike base rest below next next' z d z' d')
    (hpending : c'.pending = c.pending)
    (hdepth : c'.state.context.depth = c.state.context.depth) (hd : ¬ c.InCall d) :
    ¬ c'.InCall d' := by
  cases h with
  | returns v m _ _ heq heq' =>
    subst heq heq'
    rintro (hlt | ⟨hlength, -, hlt⟩)
    · exact hd (.inl (hpending ▸ hlt))
    · exact hd (.inr ⟨hpending ▸ hlength, ⟨_, _, rfl⟩, hdepth ▸ hlt⟩)
  | raises _ _ _ _ _ _ hsame =>
    have hdepth' : d'.state.context.depth = d.state.context.depth :=
      congrArg List.length hsame.frames
    rintro (hlt | ⟨hlength, ⟨_, _, hrun⟩, hlt⟩)
    · rw [hsame.pending, hpending] at hlt
      exact hd (.inl hlt)
    · rw [hsame.pending, hpending] at hlength
      rw [hdepth, hdepth'] at hlt
      exact hd (.inr ⟨hlength, ⟨_, _, hsame.control ▸ hrun⟩, hlt⟩)

end Config

end StackVM
