import StackVM.Proofs.Machine.Detour.Body

/-! # Both calls from beginning to end

Each step on one way is matched until both calls have ended. They agree on the result, on the
exception if there is one, and on the machine, unless the callee looks at values below its frame or
tells the runs apart by halting, by a fault, or by emptying the context.
-/
namespace StackVM
namespace Detour
variable {k : Detour} {host : Host} {c x x' y : Config}

section Compares
variable {c' x₁ y₁ y' z z' d d' : Config}

/-- The first call ends in one of two ways, and the native is given an answer with which its own
call ends alike. -/
theorem Compares.answered (h : k.Compares host c c') (habreast : k.Abreast x y)
    (hx : Config.During host c x) (hin : c.InCall x) (hy : Config.During host c' y)
    (hstep : Config.step host x = some x') (hin' : ¬ c.InCall x') :
    ∃ y' result m, (y' = y ∨ Config.step host y = some y') ∧
      Config.Replies y' (.ok result) ⟨m, k.high⟩ k.resume k.waiting ∧
      ∀ pos next, ∃ d, Config.step host (k.last pos next result m) = some d ∧
        Config.EndAlike k.base k.rest k.below k.next next x x' (k.last pos next result m) d := by
  obtain ⟨hhost, hpending, -, hdepth, hspace, hroom, htame, htame'⟩ := h
  replace hroom := hx.sp_le hroom
  replace htame := htame x hx
  replace htame' := htame' y hy
  have hsound := htame.sound x' hstep
  cases habreast with
  | choosing hlayers htwins =>
    rcases choosing_step hhost hlayers htwins hstep hroom htame htame' with
      ⟨_, -, hlong, -⟩ | ⟨result, m, rfl, rfl⟩
    · exact absurd (.inl (hpending ▸ hlong)) hin'
    · cases result with
      | error f =>
        cases hstep
        exact absurd rfl (hsound f)
      | ok chosen =>
        cases chosen with
        | settled result =>
          exact ⟨_, result, m, .inl rfl, .settled, settled_ends hspace hstep⟩
        | enter r =>
          obtain ⟨hrest, hrun, hlt, -⟩ := enters hstep hsound
          exact absurd (.inr ⟨by rw [hrest, hpending], hrun, hdepth ▸ hlt⟩) hin'
  | @running f entry hnext hsaved hlayers htwins =>
    have hwithin := running_within htwins (hpending ▸ hin.clear) htame'
    rw [← hpending] at hlayers
    have hdeep := hlayers.depth_le hin
    obtain ⟨op, hp⟩ := hlayers.performs_of_leaves
      (Config.moves_of_step hstep htame.calm hroom) hin hin' hsound
    rw [hpending] at hp
    rcases hp.leaves_cases hstep hsound (htame.going x' hstep) with
      ⟨v, s, hraises⟩ | rfl | hlong | ⟨hrest, hrun, hle⟩
    · obtain ⟨hframes, hhandlers, y', hy', hreply⟩ :=
        running_raises hpending hdepth htwins hraises hstep hroom hin' hwithin
      refine ⟨y', _, _, .inr hy', hreply, fun pos next => ?_⟩
      exact hraises.alike k.stands hspace hstep (hraises.traded hroom).2 hframes hhandlers
        (last_raises pos next)
    · obtain ⟨v, m, y', hquiet, rfl, hy', hreply⟩ :=
        running_returns hpending hdepth hnext hsaved hspace htwins hp hstep hin' hsound
      refine ⟨y', _, m, .inr hy', hreply, fun pos next => ?_⟩
      obtain ⟨hquiet', hlast⟩ := last_returns hspace pos next
      exact ⟨_, hlast, .returns v m hquiet hquiet' rfl rfl⟩
    · exact absurd (.inl (hpending ▸ hlong)) hin'
    · refine absurd (.inr ⟨by rw [hrest, hpending], hrun, ?_⟩) hin'
      rw [hdepth]
      exact Nat.lt_of_lt_of_le hdeep hle

/-- A step of the first call is matched as long as the call goes on. -/
theorem Compares.step (h : k.Compares host c c') (habreast : k.Abreast x y)
    (hx : Config.During host c x) (hin : c.InCall x) (hy : Config.During host c' y)
    (hstep : Config.step host x = some x') (hin' : c.InCall x') :
    ∃ y', Config.step host y = some y' ∧ Config.During host c' y' ∧ k.Abreast x' y' := by
  obtain ⟨hhost, hpending, hpending', hdepth, hspace, hroom, htame, htame'⟩ := h
  replace hroom := hx.sp_le hroom
  replace htame := htame x hx
  replace htame' := htame' y hy
  suffices hmatch : ∃ y', Config.step host y = some y' ∧ k.Abreast x' y' by
    obtain ⟨y', hy', hnext⟩ := hmatch
    exact ⟨y', hy', hy.step hy' (.inl (hpending' ▸ hnext.longer)), hnext⟩
  cases habreast with
  | running hnext hsaved hlayers htwins =>
    exact running_step hhost hpending hdepth hnext hsaved hlayers htwins hstep hroom hin hin' htame
      htame'
  | choosing hlayers htwins =>
    have hsound := htame.sound x' hstep
    rcases choosing_step hhost hlayers htwins hstep hroom htame htame' with
      ⟨y', hy', -, hnext⟩ | ⟨result, m, rfl, rfl⟩
    · exact ⟨y', hy', hnext⟩
    · cases result with
      | error f =>
        cases hstep
        exact absurd rfl (hsound f)
      | ok chosen =>
        cases chosen with
        | enter r =>
          obtain ⟨-, -, -, y', hy', hnext⟩ := enters hstep hsound
          exact ⟨y', hy', hnext⟩
        | settled result =>
          obtain ⟨hrest, hle⟩ := settled_leaves hspace hstep
          exact absurd hin' (Config.not_inCall (hrest.trans hpending.symm) (hdepth ▸ hle))

theorem Compares.abreast (h : k.Compares host c c') (hfirst : Config.step host c = some x₁)
    (hy₁ : Config.During host c' y₁) (h₁ : k.Abreast x₁ y₁) (hz : Config.During host c z) :
    z = c ∨ c.InCall z ∧ ∃ y, Config.During host c' y ∧ k.Abreast z y := by
  induction hz with
  | start => exact .inl rfl
  | @step x x' hx hstep hin ih =>
    right
    refine ⟨hin, ?_⟩
    rcases ih with rfl | ⟨hx_in, y, hy, habreast⟩
    · cases hfirst.symm.trans hstep
      exact ⟨y₁, hy₁, h₁⟩
    · obtain ⟨y', -, hy', hnext⟩ := h.step habreast hx hx_in hy hstep hin
      exact ⟨y', hy', hnext⟩

/-- A step of the second call is matched, or the first call ends. -/
theorem Compares.follow (h : k.Compares host c c') (habreast : k.Abreast x y)
    (hx : Config.During host c x) (hin : c.InCall x) (hy : Config.During host c' y)
    (hstep : Config.step host y = some y') :
    (∃ z d, Config.Ends host c z d) ∨
      ∃ x', Config.During host c x' ∧ c.InCall x' ∧ Config.During host c' y' ∧
        k.Abreast x' y' := by
  have hrest : x.IsRunning ∨ k.rest.length < x.pending.length :=
    h.pending ▸ hin.symm.imp_left fun hbody => hbody.2.1
  obtain ⟨x', hx'⟩ : ∃ x', Config.step host x = some x' := by
    cases habreast with
    | choosing hlayers | running _ _ hlayers => exact hlayers.exists_step hrest
  by_cases hin' : c.InCall x'
  · obtain ⟨y'', hy'', hduring, hnext⟩ := h.step habreast hx hin hy hx' hin'
    cases hy''.symm.trans hstep
    exact .inr ⟨x', hx.step hx' hin', hin', hduring, hnext⟩
  · exact .inl ⟨x, x', hx, hx', hin'⟩

/-- If the second call ends, so does the first one: they take the same number of steps from the
choice of an implementation to the end of the callee. -/
theorem Compares.ends (h : k.Compares host c c') (hfirst : Config.step host c = some x₁)
    (hin₁ : c.InCall x₁) (hy₁ : Config.During host c' y₁) (h₁ : k.Abreast x₁ y₁)
    (hend : Config.Ends host c' z' d') : ∃ z d, Config.Ends host c z d := by
  have hpath : ∀ y, Relation.ReflTransGen (Config.Continues host c') y₁ y →
      (∃ z d, Config.Ends host c z d) ∨
        ∃ x, Config.During host c x ∧ c.InCall x ∧ Config.During host c' y ∧ k.Abreast x y := by
    intro y hy
    induction hy with
    | refl => exact .inr ⟨x₁, Config.During.start.step hfirst hin₁, hin₁, hy₁, h₁⟩
    | tail _ hnext ih =>
      rcases ih with hends | ⟨x, hx, hin, hy, habreast⟩
      · exact .inl hends
      · exact h.follow habreast hx hin hy hnext.1
  rcases hpath z' (hend.continues hy₁) with hends | ⟨x, hx, hin, hz', habreast⟩
  · exact hends
  · rcases h.follow habreast hx hin hz' hend.step with hends | ⟨x', -, -, -, hnext⟩
    · exact hends
    · exact absurd (.inl (h.pending' ▸ hnext.longer)) hend.past

end Compares

end Detour

namespace Config
variable {host : Host} {below : Context} {base : Base} {m : Machine} {callee : Value}
  {args : List Value} {via : Function} {next next' : Nat} {c c' : Config} {rest : List Pending}

/-- The second call ends if the first one does, and with the same result; and the other way
round. -/
def Agree (host : Host) (base : Base) (rest : List Pending) (below : Context) (next next' : Nat)
    (c c' : Config) : Prop :=
  (∀ z d, Ends host c z d → ∃ z' d', Ends host c' z' d' ∧
    EndAlike base rest below next next' z d z' d') ∧
  ∀ z' d', Ends host c' z' d' → ∃ z d, Ends host c z d ∧
    EndAlike base rest below next next' z d z' d'

/-- It is enough that the first call ends whenever the second one does. -/
theorem Agree.intro
    (hends : ∀ z d, Ends host c z d → ∃ z' d', Ends host c' z' d' ∧
      EndAlike base rest below next next' z d z' d')
    (hback : ∀ z' d', Ends host c' z' d' → ∃ z d, Ends host c z d) :
    Agree host base rest below next next' c c' := by
  refine ⟨hends, fun z' d' hend => ?_⟩
  obtain ⟨z, d, hz⟩ := hback z' d' hend
  obtain ⟨_, _, hend', halike⟩ := hends z d hz
  obtain ⟨rfl, rfl⟩ := hend.unique hend'
  exact ⟨z, d, hz, halike⟩

theorem Calling.value_agrees (hcallee : ∀ f, callee ≠ .func f)
    (hcalls : c.Calling base rest below m callee args next)
    (hdetour : c'.Calling base rest below m (.func via) (callee :: args) next')
    (hvia : via.IsCall m.store) (hstands : base.Stands below)
    (hspace : below.sp < Capacity.stack) : Agree host base rest below next next' c c' := by
  have hraises : c.Raises base rest (m.store.notCallable callee).1
      ⟨{ m with store := (m.store.notCallable callee).2 }, below⟩ := by
    cases hcalls with
    | intro hdecode hcount =>
      refine .instr hdecode ?_
      rw [Exec.instr_call hcount, Exec.call_not_callable hcallee]
  obtain ⟨d₁, hd₁, hover⟩ : ∃ d₁, step host c = some d₁ ∧ ¬ c.InCall d₁ := by
    obtain ⟨_, _, hraised⟩ := hraises.step host
    obtain ⟨hrest, hle⟩ := proceed_raise_le (s := ⟨_, below⟩) hspace
    refine ⟨_, hraised, not_inCall (hrest.trans hcalls.pending_eq.symm) ?_⟩
    exact hcalls.depth_eq ▸ hle
  have hfirst : Ends host c c d₁ := ⟨.start, hd₁, hover⟩
  refine .intro (fun z d hend => ?_) fun _ _ _ => ⟨c, d₁, hfirst⟩
  obtain ⟨rfl, rfl⟩ := hfirst.unique hend
  obtain ⟨pos, works, hworks, hduring⟩ := hdetour.starts host hvia
  have hact : ∀ waiting, act waiting (.call callee args (Builtin.afterCall callee))
      ⟨m, below.calling (.func via) (callee :: args)⟩ =
        ⟨.dispatched (.ok (.settled (.exception (m.store.notCallable callee).1))), waiting,
          ⟨{ m with store := (m.store.notCallable callee).2 },
            below.calling (.func via) (callee :: args)⟩⟩ := by
    intro waiting
    cases callee with
    | func f => exact absurd rfl (hcallee f)
    | _ => rfl
  have hpending := hcalls.pending_eq
  have hdepth := hdetour.depth_eq.trans hcalls.depth_eq.symm
  obtain rfl := hdetour.pending_eq
  rw [hact] at hduring
  have hlast := hduring.passes hworks nofun
  obtain ⟨d', hd', halike⟩ := hraises.alike hstands hspace hd₁ hspace List.suffix_rfl rfl
    (.call (finishCall_exception pos next' (callee :: args)))
  exact ⟨_, d', ⟨hlast, hd', halike.not_inCall hpending.symm hdepth hover⟩, halike⟩

theorem Calling.function_agrees {f : Function} (hhost : host.IgnoresStack)
    (hcalls : c.Calling base rest below m (.func f) args next)
    (hdetour : c'.Calling base rest below m (.func via) (.func f :: args) next')
    (hvia : via.IsCall m.store) (hstands : base.Stands below)
    (hroom : c.state.context.sp ≤ Capacity.stack) (hspace : below.sp < Capacity.stack)
    (htame : ∀ x, During host c x → x.Tame host Touches below.depth)
    (htame' : ∀ y, During host c' y → y.Tame host Touches below.depth) :
    Agree host base rest below next next' c c' := by
  obtain ⟨pos', works, hworks, hduring⟩ := hdetour.starts host hvia
  obtain ⟨pos, hfirst⟩ : ∃ pos, step host c = some ⟨.dispatch f args,
      .call base pos next args.length f :: rest, ⟨m, below.calling (.func f) args⟩⟩ := by
    cases hcalls with
    | @intro pos _ _ _ _ hdecode hcount =>
      refine ⟨pos, ?_⟩
      rw [step_run hdecode, Exec.instr_call hcount, Exec.call_func]
      rfl
  have hlonger : rest.length <
      (works ++ .call base pos' next' (args.length + 1) via :: rest).length := by
    rw [List.length_append, List.length_cons]
    omega
  let k : Detour := ⟨base, rest, below, f, args, via, pos, next, _, hstands, hlonger⟩
  have hpending := hcalls.pending_eq
  have hpending' := hdetour.pending_eq
  have hdepth := hcalls.depth_eq
  have hk : k.Compares host c c' :=
    ⟨hhost, hpending, hpending', hdepth, hspace, hroom, htame, htame'⟩
  have habreast : k.Abreast ⟨.dispatch f args, k.call :: rest, ⟨m, k.low⟩⟩
      ⟨.dispatch f args, .native args k.resume :: k.waiting, ⟨m, k.high⟩⟩ := by
    have hthere : k.choosing.there m .new = ⟨m, k.high⟩ := congrArg (State.mk · _) m.extend_empty
    refine .choosing ⟨[k.call], rfl, rfl, List.nil_suffix, .refl [] _⟩ ?_
    rw [← hthere]
    exact .intro m .new (.dispatch f args) .nil
  have hin : c.InCall ⟨.dispatch f args, k.call :: rest, ⟨m, k.low⟩⟩ :=
    .inl (hpending ▸ Nat.lt_succ_self _)
  refine .intro (fun z d hend => ?_) fun z' d' => hk.ends hfirst hin hduring habreast
  rcases hk.abreast hfirst hduring habreast hend.during with rfl | ⟨hz, y, hy, hzy⟩
  · cases hfirst.symm.trans hend.step
    exact absurd hin hend.past
  · obtain ⟨y', result, m', hnext, hreply, hall⟩ :=
      hk.answered hzy hend.during hz hy hend.step hend.past
    have hy' : During host c' y' := by
      rcases hnext with rfl | hnext
      · exact hy
      · refine hy.step hnext (.inl ?_)
        rw [hpending']
        exact Nat.lt_trans hlonger hreply.waits
    obtain ⟨d', hd', halike⟩ := hall pos' next'
    have hover' := halike.not_inCall (hpending'.trans hpending.symm)
      (hdetour.depth_eq.trans hdepth.symm) hend.past
    obtain rfl := hpending'
    exact ⟨_, d', ⟨hy'.answered hreply hworks, hd', hover'⟩, halike⟩

end Config

end StackVM
