import StackVM.Proofs.Machine.Ongoing.Points

/-! # The floor of a call

All frames and handlers that were there at the beginning of a call stay below what the call does,
until an instruction leaves the call.
-/
namespace StackVM
namespace Config
variable {host : Host} {c x y : Config}

section Floor
variable {base : Base} {rest : List Pending} {op : Opcode} {fs : List Frame} {hs : List Handler}

theorem pending_of_proceed {pos next ip : Nat} {b : Base} {r : EStateM.Result Fault State Step}
    (h : (proceed base pos next rest r).control = .run b ip) :
    (proceed base pos next rest r).pending = rest := by
  cases r with
  | error f t => rfl
  | ok step t =>
    cases step with
    | invoke => cases h
    | next | jump | exit => rfl
    | raise v =>
      unfold proceed
      dsimp only
      split <;> rfl

theorem Performs.pending_eq (hp : x.Performs base rest op) (hstep : step host x = some y)
    (hy : y.IsRunning) : y.pending = rest := by
  obtain ⟨b, ip, hrun⟩ := hy
  cases hp with
  | fetch hdecode =>
    rw [step_run hdecode] at hstep
    cases hstep
    exact pending_of_proceed hrun
  | @finish result =>
    cases result with
    | error f =>
      cases hstep
      cases hrun
    | ok chosen =>
      cases hstep
      exact pending_of_proceed hrun

/-- As long as a call lasts, the run stays over the frame that it pushed. -/
theorem Layers.inCall (h : x.Layers [] (Stretch [] base fs hs) c.pending)
    (hfs : fs.length = c.state.context.depth + 1) (hbase : base.handlers ≤ hs.length)
    (hold : ∀ e rest, hs = e :: rest → base.handlers ≤ rest.length → e.frames < fs.length)
    (hstep : Config.step host x = some y) (hcalm : ¬ x.Resets host)
    (hroom : x.state.context.sp ≤ Capacity.stack) (hx : c.InCall x) (hy : c.InCall y) :
    y.Layers [] (Stretch [] base fs hs) c.pending := by
  refine h.step (moves_of_step hstep hcalm hroom) (by simp) ?_ (Stretch.carries _ _ _ _ _) ?_
  · intro hpending
    rcases hx with hlt | ⟨-, hrun, -⟩
    · rw [hpending] at hlt
      exact absurd hlt (Nat.lt_irrefl _)
    · exact hrun
  · rintro b op hp ⟨rfl, hover⟩ heffect
    rcases heffect.control_cases with ⟨ip, hcontrol⟩ | ⟨result, hcontrol⟩
    · have hpending := hp.pending_eq hstep ⟨_, _, hcontrol⟩
      have hdepth : fs.length ≤ y.state.context.depth := by
        rcases hy with hlt | ⟨-, -, hdepth⟩
        · rw [hpending] at hlt
          exact absurd hlt (Nat.lt_irrefl _)
        · omega
      rw [hcontrol] at heffect ⊢
      exact ⟨rfl, heffect.over_of_depth hover (Nat.zero_le _) hbase hold hdepth⟩
    · rw [hcontrol]
      trivial

/-- It is an instruction of the run itself that ends the call. -/
theorem Layers.performs_of_leaves (h : x.Layers [] (Stretch [] base fs hs) c.pending)
    (hmoves : Moves x y) (hx : c.InCall x) (hy : ¬ c.InCall y)
    (hsound : ∀ f, y.control ≠ .exited (.error f)) : ∃ op, x.Performs base c.pending op := by
  obtain ⟨q, hq, h⟩ := h
  have hshort : y.pending.length ≤ c.pending.length := Nat.le_of_not_lt fun hlt => hy (.inl hlt)
  have hlength := congrArg List.length hq
  rw [List.length_append] at hlength
  have hlong : ¬ x.IsRunning → c.pending.length < x.pending.length := fun hrun =>
    hx.resolve_right fun hbody => hrun hbody.2.1
  have hone : ∀ {w p}, x.pending = w :: p → p.length ≤ c.pending.length → ¬ x.IsRunning →
      q = [w] ∧ p = c.pending := by
    intro w p hw hp hrun
    have hlt := hlong hrun
    rw [hw, List.length_cons] at hlength hlt
    rw [hw] at hq
    cases q with
    | nil =>
      rw [List.length_nil] at hlength
      omega
    | cons w' q =>
      have hnil : q = [] := List.length_eq_zero_iff.mp (by rw [List.length_cons] at hlength; omega)
      subst hnil
      cases hq
      exact ⟨rfl, rfl⟩
  cases hmoves with
  | fetch hdecode =>
    have hnil : q = [] := List.length_eq_zero_iff.mp (by dsimp only at hlength hshort; omega)
    subst hnil
    cases hq
    obtain ⟨rfl, -⟩ := h
    exact ⟨_, .fetch hdecode⟩
  | stuck => exact absurd rfl (hsound _)
  | invoke =>
    rw [List.length_cons] at hshort
    dsimp only at hlength
    omega
  | finish =>
    obtain ⟨rfl, rfl⟩ := hone rfl hshort nofun
    obtain ⟨rfl, -⟩ := h
    exact ⟨_, .finish⟩
  | choose =>
    have hlt := hlong nofun
    rw [List.length_append] at hshort
    dsimp only at hlt
    omega
  | @answer _ work _ works _ _ _ hwork =>
    rw [List.length_append] at hshort
    obtain ⟨rfl, -⟩ := hone rfl (by omega) nofun
    cases work with
    | overloads | native => exact h.elim
    | call | nested => exact hwork.elim
  | start =>
    have hlt := hlong nofun
    rw [List.length_cons] at hlt hshort
    omega
  | close works =>
    rw [List.length_append] at hshort
    obtain ⟨rfl, -⟩ := hone rfl (by omega) nofun
    obtain ⟨_, _, -, -, -, -, -, hbelow⟩ := layered_nested.mp h
    exact hbelow.elim

theorem instr_stays {pos next : Nat} {i : Instr} {s t : State} {step : Step}
    (hres : Exec.instr base pos next i s = .ok step t) (hret : i.opcode ≠ .ret) :
    (step.Goes → s.context.depth ≤ t.context.depth) ∧
      ∀ e, step = .exit e → ∃ v, e = .halted v := by
  cases hm : Exec.manages i.opcode with
  | false =>
    obtain ⟨htrade, hplain⟩ := Exec.instr_trades hm _ _ hres
    refine ⟨fun _ => Nat.le_of_eq (congrArg List.length htrade.frames.symm), ?_⟩
    rintro e rfl
    exact hplain.elim
  | true =>
    obtain ⟨op, operand⟩ := i
    cases op with
    | halt =>
      obtain ⟨-, -, v, rfl⟩ := Exec.halt_trades _ _ hres
      refine ⟨False.elim, ?_⟩
      rintro e ⟨⟩
      exact ⟨v, rfl⟩
    | call =>
      rcases Exec.call_trades hres with ⟨f, args, rfl, -⟩ | ⟨v, rfl, -⟩
      · exact ⟨False.elim, by simp⟩
      · exact ⟨False.elim, by simp⟩
    | ret => exact absurd rfl hret
    | tryStart =>
      obtain ⟨rfl, _, -, -, -, -, rfl⟩ := Exec.tryStart_eq_ok hres
      exact ⟨fun _ => Nat.le_refl _, by simp⟩
    | tryEnd =>
      obtain ⟨rfl, _, _, -, -, -, rfl⟩ := Exec.tryEnd_eq_ok hres
      exact ⟨fun _ => Nat.le_refl _, by simp⟩
    | _ => cases hm

theorem finishCall_stays {pos next count : Nat} {callee : Function} {chosen : Dispatch}
    {s t : State} {step : Step} (hres : finishCall pos next count callee chosen s = .ok step t) :
    (step.Goes → s.context.depth ≤ t.context.depth) ∧ ∀ e, step ≠ .exit e := by
  cases chosen with
  | enter r =>
    obtain ⟨rfl, -, -, f, -, -, ht⟩ := enter_eq_ok hres
    refine ⟨fun _ => ?_, by simp⟩
    simp [ht, Context.depth]
  | settled result =>
    cases result with
    | exception | failed =>
      cases hres
      exact ⟨False.elim, by simp⟩
    | ok v =>
      simp only [finishCall, Exec.bind_apply, Exec.discard, Exec.push] at hres
      split at hres
      next hpush =>
        split at hpush
        · cases hpush
          cases hres
          exact ⟨fun _ => Nat.le_refl _, by simp⟩
        · cases hpush
      next => cases hres

/-- How an instruction can leave a depth: it raises, returns, halts or faults. -/
theorem Performs.leaves_cases (hp : x.Performs base rest op) (hstep : step host x = some y)
    (hsound : ∀ f, y.control ≠ .exited (.error f))
    (hgoing : ∀ v, y.control ≠ .exited (.ok (.halted v))) :
    (∃ v s, x.Raises base rest v s) ∨ op = .ret ∨ rest.length < y.pending.length ∨
      y.pending = rest ∧ y.IsRunning ∧ x.state.context.depth ≤ y.state.context.depth := by
  cases hp with
  | @fetch ip next i s hdecode =>
    rw [step_run hdecode] at hstep
    cases hstep
    by_cases hret : i.opcode = .ret
    · exact .inr (.inl hret)
    · cases hres : Exec.instr base ip next i s with
      | error f t =>
        rw [hres] at hsound
        exact absurd rfl (hsound f)
      | ok step t =>
        rw [hres] at hgoing
        obtain ⟨hdepth, hexit⟩ := instr_stays hres hret
        cases step with
        | next | jump => exact .inr (.inr (.inr ⟨rfl, ⟨_, _, rfl⟩, hdepth trivial⟩))
        | raise v => exact .inl ⟨v, t, .instr hdecode hres⟩
        | invoke => exact .inr (.inr (.inl (Nat.lt_succ_self _)))
        | exit e =>
          obtain ⟨v, rfl⟩ := hexit e rfl
          exact absurd rfl (hgoing v)
  | @finish result pos next count callee s =>
    cases result with
    | error f =>
      cases hstep
      exact absurd rfl (hsound f)
    | ok chosen =>
      cases hstep
      cases hres : finishCall pos next count callee chosen s with
      | error f t =>
        rw [hres] at hsound
        exact absurd rfl (hsound f)
      | ok step t =>
        obtain ⟨hdepth, hexit⟩ := finishCall_stays hres
        cases step with
        | next | jump => exact .inr (.inr (.inr ⟨rfl, ⟨_, _, rfl⟩, hdepth trivial⟩))
        | raise v => exact .inl ⟨v, t, .call hres⟩
        | invoke => exact .inr (.inr (.inl (Nat.lt_succ_self _)))
        | exit e => exact absurd rfl (hexit e)

theorem Layers.base_cases {kept : List Value} {ground : Mode → Context → Prop} {b : Base}
    (h : x.Layers kept ground rest)
    (hground : ∀ mode k, (∀ result, mode ≠ .ended result) → ground mode k → fs <:+ k.frames)
    (hb : x.base? = some b) (hrest : x.IsRunning ∨ rest.length < x.pending.length) :
    (x.IsRunning ∧ x.pending = rest ∨
      ¬ x.IsRunning ∧ ∃ pos next count callee, x.pending = .call b pos next count callee :: rest) ∨
      fs.length ≤ b.frames ∧ b.frames < x.state.context.depth := by
  obtain ⟨control, pending, s⟩ := x
  obtain ⟨q, hq, h⟩ := h
  cases hq
  cases control with
  | dispatch | exited => cases hb
  | run b' ip =>
    cases hb
    refine (h.running_cases hground).imp_left ?_
    rintro rfl
    exact .inl ⟨⟨_, _, rfl⟩, rfl⟩
  | dispatched result =>
    have hlt : rest.length < (q ++ rest).length := hrest.resolve_left nofun
    cases q with
    | nil => exact absurd hlt (Nat.lt_irrefl _)
    | cons work q =>
      cases work with
      | overloads | native | nested => cases hb
      | call b' pos next count callee =>
        cases hb
        refine (Layered.running_cases hground h).imp_left ?_
        rintro rfl
        exact .inr ⟨nofun, pos, next, count, callee, rfl⟩

/-- What is in control, or has ended, above other work has a next step. -/
theorem Layers.exists_step {kept : List Value} {ground : Mode → Context → Prop}
    (h : x.Layers kept ground rest) (hrest : x.IsRunning ∨ rest.length < x.pending.length) :
    ∃ y, Config.step host x = some y := by
  obtain ⟨control, pending, s⟩ := x
  obtain ⟨q, hq, h⟩ := h
  cases hq
  cases control with
  | run | dispatch => exact ⟨_, rfl⟩
  | dispatched result =>
    cases q with
    | nil => exact absurd (hrest.resolve_left nofun) (Nat.lt_irrefl _)
    | cons work q =>
      cases work with
      | call | overloads | native =>
        change ∃ y, deliver result _ _ s = some y
        unfold deliver
        split <;> first | exact ⟨_, rfl⟩ | contradiction
      | nested =>
        obtain ⟨_, _, -, -, -, -, hlayer, -⟩ := layered_nested.mp h
        exact hlayer.elim
  | exited result =>
    cases q with
    | nil => exact absurd (hrest.resolve_left nofun) (Nat.lt_irrefl _)
    | cons work q =>
      cases work with
      | nested => exact ⟨_, rfl⟩
      | call | overloads | native => exact h.elim

theorem Clear.longer {b : Base} (h : x.Clear rest) (hb : x.base? = some b)
    (hrun : ¬ x.IsRunning) : rest.length < x.pending.length := by
  obtain ⟨control, pending, s⟩ := x
  cases control with
  | run => exact absurd ⟨_, _, rfl⟩ hrun
  | dispatch => cases hb
  | dispatched | exited => exact h

theorem InCall.clear (hx : c.InCall x) : x.Clear c.pending := by
  have hlong : ¬ x.IsRunning → c.pending.length < x.pending.length := fun hrun =>
    hx.resolve_right fun hbody => hrun hbody.2.1
  obtain ⟨control, pending, s⟩ := x
  cases control with
  | run | dispatch => trivial
  | dispatched | exited => exact hlong nofun

theorem InCall.not_exited (hy : c.InCall y) (hmoves : Moves x y)
    (hshort : x.IsRunning ∧ x.pending.length ≤ c.pending.length ∨
      ¬ x.IsRunning ∧ x.pending.length ≤ c.pending.length + 1) (result : Except Fault Exit) :
    y.control ≠ .exited result := by
  intro hexit
  have hlong : c.pending.length < y.pending.length := by
    refine hy.resolve_right fun ⟨_, ⟨_, _, hrun⟩, _⟩ => ?_
    cases hexit.symm.trans hrun
  cases hmoves with
  | fetch | stuck =>
    rcases hshort with ⟨-, hle⟩ | ⟨hrun, -⟩
    · exact absurd hlong (Nat.not_lt_of_le hle)
    · exact hrun ⟨_, _, rfl⟩
  | finish =>
    rcases hshort with ⟨⟨_, _, hrun⟩, -⟩ | ⟨-, hle⟩
    · cases hrun
    · exact absurd hlong (Nat.not_lt_of_le (Nat.le_of_succ_le_succ hle))
  | choose _ hchoosing | answer _ _ hchoosing | close _ hchoosing =>
    cases hexit
    exact hchoosing
  | invoke | start => cases hexit

theorem reach_eq_zero (h : x.base? = none) : x.reach = 0 := by
  obtain ⟨control, pending, s⟩ := x
  cases control with
  | run => cases h
  | dispatch | exited => rfl
  | dispatched result =>
    cases pending with
    | nil => rfl
    | cons work pending =>
      cases work with
      | call => cases h
      | overloads | native | nested => rfl

theorem Stretch.suffix {mode : Mode} {k : Context} (hmode : ∀ result, mode ≠ .ended result)
    (h : Stretch [] base fs hs mode k) : fs <:+ k.frames := by
  cases mode with
  | choosing => exact h.elim
  | running => exact h.2.frames_suffix
  | ended result => exact absurd rfl (hmode result)

theorem Layers.depth_le (h : x.Layers [] (Stretch [] base fs hs) c.pending) (hx : c.InCall x) :
    fs.length ≤ x.state.context.depth := by
  obtain ⟨q, hq, h⟩ := h
  refine (h.frames_suffix (fun _ _ => Stretch.suffix) ?_).length_le
  rintro rfl result hmode
  rcases hx with hlt | ⟨-, hrun, -⟩
  · rw [hq] at hlt
    exact Nat.lt_irrefl _ hlt
  · obtain ⟨_, _, hcontrol⟩ := hrun
    rw [hcontrol] at hmode
    cases hmode

end Floor

end Config

end StackVM
