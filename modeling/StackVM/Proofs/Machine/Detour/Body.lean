import StackVM.Proofs.Machine.Detour.Choice

/-! # The body of a closure on both ways

The closure that was chosen runs in the run itself on one way and in a run of its own on the other.
The two are twins until its frame returns or an exception leaves it. Then one way has come to the
end of its call, and the other has to end a run and let the native answer.
-/
namespace StackVM
namespace Detour
variable {k : Detour} {host : Host} {c x x' y : Config}

theorem below_low (k : Detour) (f : Frame) (entry : Nat) : k.base.Below (k.body f entry).low where
  frames := Nat.lt_succ_of_le k.stands.frames
  handlers := k.stands.handlers
  outside := fun h rest heq hle => Nat.lt_succ_of_le (k.stands.outside h rest heq hle)

theorem below_high (k : Detour) (f : Frame) (entry : Nat) :
    k.inner.Below (k.body f entry).high where
  frames := Nat.lt_succ_self _
  handlers := Nat.le_refl _
  outside := by
    intro h rest heq hle
    have hlength : k.below.handlerCount = (h :: rest).length := congrArg List.length heq
    rw [List.length_cons] at hlength
    have hcount : k.below.handlerCount ≤ rest.length := hle
    omega

theorem body_starts (k : Detour) (f : Frame) (entry : Nat) (m : Machine) :
    (k.body f entry).Twins k.rest (.nested k.inner k.high.sp entry k.resume :: k.waiting)
      ⟨.run k.base entry, k.rest, ⟨m, (k.body f entry).low⟩⟩
      ⟨.run k.inner entry, .nested k.inner k.high.sp entry k.resume :: k.waiting,
        ⟨m, (k.body f entry).high⟩⟩ := by
  have hthere : (k.body f entry).there m .new = ⟨m, (k.body f entry).high⟩ :=
    congrArg (State.mk · _) m.extend_empty
  rw [← hthere]
  exact .intro m .new (.run entry (.below rfl (k.below_low f entry) (k.below_high f entry))) .nil

theorem enters {r : ClosureRef} {m : Machine}
    (hstep : Config.step host ⟨.dispatched (.ok (.enter r)), k.call :: k.rest, ⟨m, k.low⟩⟩ =
      some x') (hsound : ∀ f, x'.control ≠ .exited (.error f)) :
    x'.pending = k.rest ∧ x'.IsRunning ∧ k.below.depth < x'.state.context.depth ∧
    ∃ y', Config.step host ⟨.dispatched (.ok (.enter r)), .native k.args k.resume :: k.waiting,
      ⟨m, k.high⟩⟩ = some y' ∧ k.Abreast x' y' := by
  unfold Config.step Config.deliver Config.finishCall at hstep
  dsimp only [call] at hstep
  by_cases hdepth : k.below.depth < Capacity.frames
  · rw [low, Config.enter_calling hdepth] at hstep
    cases hstep
    refine ⟨rfl, ⟨_, _, rfl⟩, Nat.lt_succ_self _, ?_⟩
    have hpush := Exec.pushFrame_apply m (m.store.closure r) k.args k.high
      (m.store.closure r).entry (m.store.closure r).entry k.high.sp hdepth
    unfold Config.step Config.deliver Config.runClosure
    dsimp only
    rw [hpush]
    refine ⟨_, rfl, .running rfl rfl ?_ (k.body_starts _ _ _)⟩
    exact ⟨[], rfl, rfl, .bottom List.nil_suffix rfl rfl⟩
  · rw [low, Config.enter_crowded hdepth] at hstep
    cases hstep
    exact absurd rfl (hsound _)

theorem running_within {f : Frame} {entry : Nat} (htwins : (k.body f entry).Twins k.rest
      (.nested k.inner k.high.sp entry k.resume :: k.waiting) x y) (hclear : x.Clear k.rest)
    (htame : y.Tame host Config.Touches k.below.depth) :
    (k.body f entry).low.sp + x.reach ≤ x.state.context.sp := by
  refine htwins.within rfl hclear (Nat.succ_pos _) htame fun _ => ?_
  cases htwins with
  | intro m r => exact ⟨_, oldest?_append_cons _ k.below.frames _, Nat.le_refl _⟩

/-- While the body of a closure runs, a step is matched as long as the call goes on. -/
theorem running_step {f : Frame} {entry : Nat} (hhost : host.IgnoresStack)
    (hpending : c.pending = k.rest) (hdepth : c.state.context.depth = k.below.depth)
    (hnext : f.returnIp = k.next) (hsaved : f.savedSp = k.below.sp)
    (hlayers : x.Layers [] (Stretch [] k.base (f :: k.below.frames) k.below.handlers) k.rest)
    (htwins : (k.body f entry).Twins k.rest
      (.nested k.inner k.high.sp entry k.resume :: k.waiting) x y)
    (hstep : Config.step host x = some x') (hroom : x.state.context.sp ≤ Capacity.stack)
    (hx : c.InCall x) (hx' : c.InCall x') (htame : x.Tame host Config.Touches k.below.depth)
    (htame' : y.Tame host Config.Touches k.below.depth) :
    ∃ y', Config.step host y = some y' ∧ k.Abreast x' y' := by
  rw [← hpending] at hlayers
  have hlayers' := hlayers.inCall (congrArg Nat.succ hdepth.symm) k.stands.handlers
    (k.below_low f entry).outside hstep htame.calm hroom hx hx'
  have hclear : x.Clear k.rest := hpending ▸ hx.clear
  have hallows : (k.body f entry).Allows host k.rest x x' := by
    refine ⟨hclear, htame.calm, htame.sound x' hstep, .inl ?_, ?_, ?_⟩
    · exact running_within htwins hclear htame'
    · intro ref args run _ hrun
      exact NativeCode.body_alike hhost rfl hrun args
    · intro b hb hlt
      have hmoves := Config.moves_of_step hstep htame.calm hroom
      refine ⟨hlayers'.depth_le hx', hx'.not_exited hmoves ?_⟩
      have hrest : x.IsRunning ∨ c.pending.length < x.pending.length :=
        hx.symm.imp_left fun hbody => hbody.2.1
      rcases hlayers.base_cases (fun _ _ => Config.Stretch.suffix) hb hrest with
        (⟨hrun, heq⟩ | ⟨hrun, _, _, _, _, heq⟩) | ⟨hle, -⟩
      · exact .inl ⟨hrun, by rw [heq]⟩
      · exact .inr ⟨hrun, by rw [heq, List.length_cons]⟩
      · exact absurd hlt (Nat.not_lt_of_le hle)
  obtain ⟨y', hy, hnext' | ⟨-, f', hf'⟩⟩ := htwins.step hstep hallows
  · exact ⟨y', hy, .running hnext hsaved (hpending ▸ hlayers') hnext'⟩
  · exact absurd hf' (htame'.sound y' hy f')

theorem there_body (k : Detour) (f : Frame) (entry : Nat) (m : Machine) (r : Context) :
    (k.body f entry).there m r = ⟨m, r.on (k.body f entry).high⟩ :=
  congrArg (State.mk · _) m.extend_empty

theorem eq_inner_of_bases {f : Frame} {entry : Nat} {b : Base}
    (h : (k.body f entry).Bases k.base b) : b = k.inner := by
  cases h with
  | above hle => exact absurd (Nat.lt_succ_of_le k.stands.frames) (Nat.not_lt_of_le hle)
  | below hruns =>
    cases hruns
    rfl

theorem returns_above {f : Frame} {entry pos next : Nat} {m : Machine} {r : Context}
    (hpending : c.pending = k.rest) (hdepth : c.state.context.depth = k.below.depth)
    (hsaved : f.savedSp = k.below.sp)
    (hx' : ¬ c.InCall (Config.proceed k.base pos next k.rest
      (Exec.ret k.base pos ((k.body f entry).here m r))))
    (hsound : ∀ e, (Config.proceed k.base pos next k.rest
      (Exec.ret k.base pos ((k.body f entry).here m r))).control ≠ .exited (.error e)) :
    r.frames = [] ∧ ∃ v above, r.stack = v :: above := by
  cases hres : Exec.ret k.base pos ((k.body f entry).here m r) with
  | error e t =>
    rw [hres] at hsound
    exact absurd rfl (hsound e)
  | ok step t =>
    rw [hres] at hx'
    have hfloor : f.savedSp = (k.body f entry).low.sp := hsaved
    refine Exec.of_ret_floor rfl hfloor hres ?_
    obtain ⟨_, _, _, frames, -, -, -, -, hcase⟩ := Exec.ret_eq_ok hres
    rcases hcase with ⟨-, hlast, -, ht⟩ | ⟨-, rfl, ht⟩
    · rw [ht]
      exact Nat.le_trans (Nat.le_of_eq hlast) k.stands.frames
    · refine Nat.le_of_not_lt fun hlt => hx' (.inr ⟨?_, ⟨_, _, rfl⟩, hdepth ▸ hlt⟩)
      rw [hpending]
      rfl

/-- The body returns from both runs with the same value. -/
theorem running_returns {f : Frame} {entry : Nat} (hpending : c.pending = k.rest)
    (hdepth : c.state.context.depth = k.below.depth) (hnext : f.returnIp = k.next)
    (hsaved : f.savedSp = k.below.sp) (hspace : k.below.sp < Capacity.stack)
    (htwins : (k.body f entry).Twins k.rest
      (.nested k.inner k.high.sp entry k.resume :: k.waiting) x y)
    (hret : x.Performs k.base k.rest .ret) (hstep : Config.step host x = some x')
    (hx' : ¬ c.InCall x') (hsound : ∀ f, x'.control ≠ .exited (.error f)) :
    ∃ v m y', (∀ w s, ¬ x.Raises k.base k.rest w s) ∧
      x' = ⟨.run k.base k.next, k.rest, ⟨m, k.below.pushing v⟩⟩ ∧
      Config.step host y = some y' ∧
      Config.Replies y' (.ok (.ok v)) ⟨m, k.high⟩ k.resume k.waiting := by
  obtain ⟨pos, next, ⟨op, operand⟩, s, rfl, hdecode, hop⟩ := hret.fetched (by simp)
  cases hop
  obtain ⟨b, m, r, hbase, rfl, rfl⟩ := htwins.run_eq
  obtain rfl := eq_inner_of_bases hbase
  rw [there_body]
  have hinstr : ∀ b, Exec.instr b pos next ⟨.ret, operand⟩ = Exec.ret b pos := fun _ => rfl
  rw [Config.step_run hdecode, hinstr] at hstep
  obtain rfl := Option.some.inj hstep
  obtain ⟨hr, v, above, habove⟩ := returns_above hpending hdepth hsaved hx' hsound
  have hlow : Exec.ret k.base pos ((k.body f entry).here m r) =
      .ok (.jump f.returnIp) ⟨m, k.below.pushing v⟩ :=
    Exec.ret_floor_goes rfl hsaved hr habove (k.below_low f entry) k.stands.inner hspace
  have hhigh : Exec.ret k.inner pos ⟨m, r.on (k.body f entry).high⟩ =
      .ok (.exit (.returned v)) ⟨m, k.high⟩ :=
    Exec.ret_floor_leaves rfl rfl hr habove (k.below_high f entry) ⟨rfl, rfl⟩
  have hreply : Config.Replies ⟨.exited (.ok (.returned v)),
      .nested k.inner k.high.sp entry k.resume :: k.waiting, ⟨m, k.high⟩⟩ (.ok (.ok v))
      ⟨m, k.high⟩ k.resume k.waiting := .ended
  refine ⟨v, m, _, ?_, ?_, ?_, hreply⟩
  · intro w s hraises
    cases hraises with
    | instr hdecode' hres =>
      cases hdecode.symm.trans hdecode'
      cases (hinstr k.base ▸ hlow).symm.trans hres
  · rw [hlow, hnext]
    rfl
  · have hdecode' : (State.mk m (r.on (k.body f entry).high)).machine.program.decodeAt pos =
        .ok (⟨.ret, operand⟩, next) := hdecode
    rw [Config.step_run hdecode', hinstr, hhigh]
    rfl

theorem raises_twin (host : Host) {f : Frame} {entry : Nat} {v : Value} {s : State}
    (htwins : (k.body f entry).Twins k.rest
      (.nested k.inner k.high.sp entry k.resume :: k.waiting) x y)
    (hraises : x.Raises k.base k.rest v s)
    (hwithin : (k.body f entry).low.sp + x.reach ≤ x.state.context.sp) :
    ∃ m r pos next, s = (k.body f entry).here m r ∧ Config.step host y =
      some (Config.proceed k.inner pos next (.nested k.inner k.high.sp entry k.resume :: k.waiting)
        (.ok (.raise v) ⟨m, r.on (k.body f entry).high⟩)) := by
  cases hraises with
  | @instr ip next i s s' v hdecode hres =>
    obtain ⟨b, m, r, hbase, rfl, rfl⟩ := htwins.run_eq
    obtain rfl := eq_inner_of_bases hbase
    have hreach : Config.reach ⟨.run k.base ip, k.rest, (k.body f entry).here m r⟩ = i.reach := by
      simp only [Config.reach, hdecode]
    rw [hreach, Shift.context_here, Context.sp_on] at hwithin
    obtain ⟨m', r', rfl, hthere | ⟨hgoes, -⟩⟩ := Exec.instr_twin hbase (.inl (by omega)) hres
      fun _ => ⟨fun hgoes => hgoes.elim, by simp⟩
    · rw [there_body, there_body] at hthere
      have hdecode' : (State.mk m (r.on (k.body f entry).high)).machine.program.decodeAt ip =
          .ok (i, next) := hdecode
      refine ⟨m', r', ip, next, rfl, ?_⟩
      rw [there_body, Config.step_run hdecode', hthere]
    · exact hgoes.elim
  | @call pos next count callee d s s' v hres =>
    obtain ⟨b, m, r, hbase, rfl, rfl⟩ := htwins.call_eq
    obtain rfl := eq_inner_of_bases hbase
    rw [Shift.context_here, Context.sp_on] at hwithin
    have hr : (k.body f entry).Within (count + 1) r :=
      .inl (Nat.le_of_add_le_add_left (Nat.add_comm r.sp _ ▸ hwithin))
    obtain ⟨m', r', rfl, hthere | ⟨hgoes, -⟩⟩ :=
      Exec.finishCall_follows count callee d m r _ _ hr hres
    · rw [there_body, there_body] at hthere
      refine ⟨m', r', pos, next, rfl, ?_⟩
      rw [there_body, ← hthere]
      rfl
    · exact hgoes.elim

theorem abandon_high {r : Context} (f : Frame) (entry : Nat) (hnone : r.handlers = []) :
    (r.on (k.body f entry).high).abandon k.inner = k.high := by
  have holdest : oldest? k.inner.frames (r.on (k.body f entry).high).frames =
      some { f with returnIp := entry, savedSp := k.high.sp } :=
    oldest?_append_cons _ k.below.frames _
  have hframes : keepOldest k.inner.frames (r.on (k.body f entry).high).frames = k.below.frames :=
    keepOldest_eq_of_suffix ((List.suffix_cons _ _).trans (List.suffix_append _ _)) rfl
  have hstack : keepOldest k.high.sp (r.on (k.body f entry).high).stack = k.high.stack :=
    keepOldest_eq_of_suffix (List.suffix_append _ _) rfl
  simp only [Context.abandon, holdest, hframes, hstack]
  rw [Context.on, hnone]
  rfl

/-- The exception finds no handler in the call, nor in the run that the native started. -/
theorem running_raises {f : Frame} {entry : Nat} {v : Value} {s : State}
    (hpending : c.pending = k.rest) (hdepth : c.state.context.depth = k.below.depth)
    (htwins : (k.body f entry).Twins k.rest
      (.nested k.inner k.high.sp entry k.resume :: k.waiting) x y)
    (hraises : x.Raises k.base k.rest v s) (hstep : Config.step host x = some x')
    (hroom : x.state.context.sp ≤ Capacity.stack) (hx' : ¬ c.InCall x')
    (hwithin : (k.body f entry).low.sp + x.reach ≤ x.state.context.sp) :
    k.below.frames <:+ s.context.frames ∧ s.context.handlers = k.below.handlers ∧
    ∃ y', Config.step host y = some y' ∧
      Config.Replies y' (.ok (.exception v)) ⟨s.machine, k.high⟩ k.resume k.waiting := by
  obtain ⟨-, hspace⟩ := hraises.traded hroom
  obtain ⟨pos, next, hx⟩ := hraises.step host
  obtain ⟨m, r, pos', next', rfl, hy⟩ := raises_twin host htwins hraises hwithin
  cases hx.symm.trans hstep
  have hnone : r.handlers = [] := by
    cases hr : r.handlers with
    | nil => rfl
    | cons h hs =>
      have hown : Exec.ownHandler? k.base ((k.body f entry).here m r).context =
          some (h.lift (k.body f entry).low) := by
        refine Exec.ownHandler?_eq_some_iff.mpr
          ⟨hs.map (Handler.lift (k.body f entry).low) ++ k.below.handlers, ?_, ?_⟩
        · rw [Shift.context_here, Context.on, hr]
          rfl
        · rw [List.length_append]
          exact Nat.le_add_left_of_le k.stands.handlers
      rw [Config.proceed_caught hown hspace] at hx'
      refine absurd (.inr ⟨by rw [hpending], ⟨_, _, rfl⟩, ?_⟩) hx'
      have hlow : (k.body f entry).low.depth = k.below.depth + 1 := rfl
      have hkept : (keepOldest (h.lift (k.body f entry).low).frames
          (r.on (k.body f entry).low).frames).length = min (h.frames + (k.below.depth + 1))
            (r.depth + (k.below.depth + 1)) := by
        rw [length_keepOldest, ← hlow, ← Context.depth_on]
        rfl
      rw [hdepth]
      refine Nat.lt_of_lt_of_eq ?_ hkept.symm
      omega
  refine ⟨?_, ?_, _, hy, ?_⟩
  · exact (List.suffix_cons f _).trans (List.suffix_append _ _)
  · rw [Shift.context_here, Context.on, hnone]
    rfl
  · have hnobody : Exec.ownHandler? k.inner (r.on (k.body f entry).high) = none := by
      refine Exec.ownHandler?_eq_none_iff.mpr ?_
      rw [Context.on, hnone]
      exact Nat.le_refl _
    rw [Config.proceed_uncaught hnobody, abandon_high f entry hnone]
    exact .ended

/-- The end of the call of the native, once it has a result. -/
def last (k : Detour) (pos next : Nat) (result : MethodResult) (m : Machine) : Config :=
  ⟨.dispatched (.ok (.settled (Builtin.reply k.callee ⟨m, k.high⟩ result).1)),
    .call k.base pos next (k.args.length + 1) k.via :: k.rest,
    (Builtin.reply k.callee ⟨m, k.high⟩ result).2⟩

theorem last_returns {v : Value} {m : Machine} (hroom : k.below.sp < Capacity.stack)
    (pos next : Nat) : (∀ w s, ¬ (k.last pos next (.ok v) m).Raises k.base k.rest w s) ∧
      Config.step host (k.last pos next (.ok v) m) =
        some ⟨.run k.base next, k.rest, ⟨m, k.below.pushing v⟩⟩ := by
  have hfinish : Config.finishCall pos next (k.args.length + 1) k.via (.settled (.ok v))
      ⟨m, k.high⟩ = .ok .next ⟨m, k.below.pushing v⟩ :=
    Config.finishCall_ok pos next (.func k.callee :: k.args) hroom
  have hstep : Config.step host (k.last pos next (.ok v) m) = some (Config.proceed k.base pos next
    k.rest (Config.finishCall pos next (k.args.length + 1) k.via (.settled (.ok v))
      ⟨m, k.high⟩)) := rfl
  constructor
  · intro w s hraises
    cases hraises with
    | call hres => cases hfinish.symm.trans hres
  · rw [hstep, hfinish]
    rfl

theorem last_raises {v : Value} {m : Machine} (pos next : Nat) :
    (k.last pos next (.exception v) m).Raises k.base k.rest v ⟨m, k.below⟩ :=
  .call (Config.finishCall_exception pos next (.func k.callee :: k.args))

theorem settled_leaves {m : Machine} {result : MethodResult}
    (hroom : k.below.sp < Capacity.stack)
    (hstep : Config.step host ⟨.dispatched (.ok (.settled result)), k.call :: k.rest,
      ⟨m, k.low⟩⟩ = some x') :
    x'.pending = k.rest ∧ x'.state.context.depth ≤ k.below.depth := by
  unfold Config.step Config.deliver at hstep
  dsimp only [call] at hstep
  rw [low] at hstep
  cases result with
  | ok v =>
    rw [Config.finishCall_ok _ _ _ hroom] at hstep
    cases hstep
    exact ⟨rfl, Nat.le_refl _⟩
  | exception v =>
    rw [Config.finishCall_exception] at hstep
    cases hstep
    exact Config.proceed_raise_le hroom
  | failed why =>
    rw [Config.finishCall_failed] at hstep
    cases hstep
    exact Config.proceed_raise_le hroom

theorem settled_ends {m : Machine} {result : MethodResult} (hroom : k.below.sp < Capacity.stack)
    (hstep : Config.step host ⟨.dispatched (.ok (.settled result)), k.call :: k.rest,
      ⟨m, k.low⟩⟩ = some x') (pos next : Nat) :
    ∃ d, Config.step host (k.last pos next result m) = some d ∧
      Config.EndAlike k.base k.rest k.below k.next next
        ⟨.dispatched (.ok (.settled result)), k.call :: k.rest, ⟨m, k.low⟩⟩ x'
        (k.last pos next result m) d := by
  cases result with
  | ok v =>
    have hfinish : Config.finishCall k.pos k.next k.args.length k.callee (.settled (.ok v))
        ⟨m, k.low⟩ = .ok .next ⟨m, k.below.pushing v⟩ := Config.finishCall_ok _ _ _ hroom
    obtain ⟨hquiet, hlast⟩ := last_returns hroom pos next
    refine ⟨_, hlast, .returns v m ?_ hquiet ?_ rfl⟩
    · intro w s hraises
      cases hraises with
      | call hres => cases hfinish.symm.trans hres
    · unfold Config.step Config.deliver at hstep
      dsimp only [call] at hstep
      rw [hfinish] at hstep
      cases hstep
      rfl
  | exception v =>
    have hraises : Config.Raises k.base k.rest ⟨.dispatched (.ok (.settled (.exception v))),
        k.call :: k.rest, ⟨m, k.low⟩⟩ v ⟨m, k.below⟩ := .call (Config.finishCall_exception _ _ _)
    exact hraises.alike k.stands hroom hstep hroom List.suffix_rfl rfl (last_raises pos next)
  | failed why =>
    have hraises : Config.Raises k.base k.rest ⟨.dispatched (.ok (.settled (.failed why))),
        k.call :: k.rest, ⟨m, k.low⟩⟩ (m.store.dispatchError why k.callee).1
        ⟨{ m with store := (m.store.dispatchError why k.callee).2 }, k.below⟩ :=
      .call (Config.finishCall_failed why)
    exact hraises.alike k.stands hroom hstep hroom List.suffix_rfl rfl (last_raises pos next)

end Detour
end StackVM
