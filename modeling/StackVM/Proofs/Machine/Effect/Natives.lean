import StackVM.Proofs.Machine.Effect.Calls

/-! # Steps around the instructions

As long as no native empties the context, the steps that choose an implementation and let natives go
on leave it alone, but for the frame of a run that a native starts and the end of a run that
faulted. No step needs more room on the stack than there is.
-/
namespace StackVM
namespace Config
variable {host : Host} {base : Base} {s s' : State} {pos next count : Nat} {p : List Pending}

theorem act_chooses {a : Action} (h : ¬ a.Resets s) (p : List Pending) :
    ∃ control works t, act p a s = ⟨control, works ++ p, t⟩ ∧ control.IsChoosing ∧
      (∀ w ∈ works, w.IsPassive) ∧ t.context = s.context := by
  induction a generalizing s with
  | done result => exact ⟨_, [], s, rfl, trivial, by simp, rfl⟩
  | fault f => exact ⟨_, [], s, rfl, trivial, by simp, rfl⟩
  | edit e resume ih => exact ih _ h
  | call callee args resume ih =>
    cases callee with
    | func f =>
      refine ⟨_, [.native args resume], s, rfl, trivial, ?_, rfl⟩
      simp [Pending.IsPassive]
    | _ => exact ih _ _ h
  | define native resume ih => exact ih _ h
  | reset resume ih => exact absurd trivial h

theorem tryNext_moves (missing : Bool) (args : List Value) (p : List Pending)
    (fs : List Function) (s : State) :
    ∃ control works, tryNext missing args p s fs = ⟨control, works ++ p, s⟩ ∧
      control.IsChoosing ∧ ∀ w ∈ works, w.IsPassive := by
  cases fs with
  | nil => exact ⟨_, [], rfl, trivial, by simp⟩
  | cons f rest =>
    refine ⟨_, [.overloads rest missing args], rfl, trivial, ?_⟩
    simp [Pending.IsPassive]

theorem dispatch_moves {callee : Function} {args : List Value}
    (hcalm : ¬ Resets host ⟨.dispatch callee args, p, s⟩) :
    Moves ⟨.dispatch callee args, p, s⟩ (dispatch host callee args p s) := by
  cases callee with
  | closure r =>
    unfold dispatch
    dsimp only
    split
    · exact .choose [] trivial (by simp) rfl
    · exact .choose [] trivial (by simp) rfl
  | native r =>
    unfold dispatch
    dsimp only
    cases hbody : (s.machine.store.native r).code.body host with
    | pure run => exact .choose [] trivial (by simp) rfl
    | contextual run =>
      have hquiet : ¬ (run s args).Resets s := fun h => hcalm ⟨_, _, _, .start hbody, h⟩
      obtain ⟨control, works, t, hact, hcontrol, hworks, ht⟩ := act_chooses hquiet p
      dsimp only
      rw [hact]
      exact .choose works hcontrol hworks ht
  | chain r =>
    obtain ⟨control, works, heq, hcontrol, hworks⟩ :=
      tryNext_moves false args p (s.machine.store.chain r).overloads.reverse s
    change Moves _ (tryNext _ _ _ _ _)
    rw [heq]
    exact .choose works hcontrol hworks rfl

theorem reply_moves {c d : Config} {answer : Except Fault MethodResult} {resume : Resume}
    (h : Replies c answer s resume p) (hcalm : ¬ Resets host c) (hstep : step host c = some d) :
    ∃ control works t, d = ⟨control, works ++ p, t⟩ ∧ control.IsChoosing ∧
      (∀ w ∈ works, w.IsPassive) ∧ t.context = s.context := by
  have hquiet : ¬ (resume answer s).Resets s := fun hr => hcalm ⟨_, _, _, .reply h, hr⟩
  obtain ⟨control, works, t, hact, hrest⟩ := act_chooses hquiet p
  rw [step_of_replies h] at hstep
  cases hstep
  exact ⟨control, works, t, hact, hrest⟩

theorem pushFrame_eq_ok (hdepth : s.context.depth < Capacity.frames) (c : Closure)
    (args : List Value) (pos returnIp savedSp : Nat) :
    ∃ f : Frame, ∃ s', Exec.pushFrame pos c args returnIp savedSp s = .ok () s' ∧
      f.savedSp = savedSp ∧ s'.context = { s.context with frames := f :: s.context.frames } := by
  simp only [Exec.pushFrame, Exec.bind_apply, Exec.requireFrame, if_pos hdepth]
  refine ⟨_, _, rfl, ?_, rfl⟩
  rfl

theorem pushFrame_eq_error (hdepth : ¬ s.context.depth < Capacity.frames) (c : Closure)
    (args : List Value) (pos returnIp savedSp : Nat) :
    Exec.pushFrame pos c args returnIp savedSp s = .error ⟨pos, .frameOverflow⟩ s := by
  simp only [Exec.pushFrame, Exec.bind_apply, Exec.requireFrame, if_neg hdepth]

theorem state_eq_of_pushFrame_error {c : Closure} {args : List Value} {returnIp savedSp : Nat}
    {f : Fault} (h : Exec.pushFrame pos c args returnIp savedSp s = .error f s') : s' = s := by
  by_cases hdepth : s.context.depth < Capacity.frames
  · obtain ⟨_, _, hok, -⟩ := pushFrame_eq_ok hdepth c args pos returnIp savedSp
    rw [hok] at h
    cases h
  · rw [pushFrame_eq_error hdepth] at h
    cases h
    rfl

/-- The run goes on, and no native does with the next step. -/
def isQuiet (c : Config) : Bool :=
  match c.control, c.pending with
  | .run _ _, _ => true
  | .dispatch (.closure _) _, _ => true
  | .dispatched _, .call _ _ _ _ _ :: _ => true
  | .dispatched (.ok (.enter _)), .native _ _ :: _ => c.state.context.depth < Capacity.frames
  | _, _ => false

theorem not_replies_of_isQuiet {c : Config} (h : c.isQuiet = true) {rest : List Pending}
    {answer : Except Fault MethodResult} {s : State} {resume : Resume} :
    ¬ Replies c answer s resume rest := by
  intro hreply
  cases hreply with
  | settled | failed | ended => cases h
  | @crowded r f args resume _ t t' hfull =>
    have hdepth : t.context.depth < Capacity.frames := of_decide_eq_true h
    obtain ⟨_, _, hok, -⟩ := pushFrame_eq_ok hdepth (t.machine.store.closure r) args
      (t.machine.store.closure r).entry (t.machine.store.closure r).entry t.context.sp
    rw [hok] at hfull
    cases hfull

theorem calm_of_isQuiet {c : Config} (h : c.isQuiet = true) (host : Host) (rest : List Pending) :
    ¬ c.Resets host ∧ ¬ c.Ended rest := by
  constructor
  · rintro ⟨a, rest, s, hresumes, -⟩
    cases hresumes with
    | start => cases h
    | reply hreply => exact not_replies_of_isQuiet h hreply
  · rintro ⟨-, result, hcontrol⟩
    rw [isQuiet, hcontrol] at h
    cases h

theorem calm_of_path {c : Config} {n : Nat} (h : (path host n c).1.all isQuiet = true)
    (rest : List Pending) : ∀ x ∈ (path host n c).1, ¬ x.Resets host ∧ ¬ x.Ended rest :=
  fun x hx => calm_of_isQuiet (List.all_eq_true.mp h x hx) host rest

theorem waits_of_path {c : Config} {n : Nat} {rest : List Pending}
    (h : (path host n c).1.all isQuiet = true)
    (hlength : ∀ x ∈ (path host n c).1, rest.length < x.pending.length) :
    ∀ x ∈ (path host n c).1, x.Waits rest :=
  fun x hx => ⟨hlength x hx, fun _ _ _ => not_replies_of_isQuiet (List.all_eq_true.mp h x hx)⟩

theorem overloads_moves {result : Except Fault Dispatch} {older : List Function} {missing : Bool}
    {args : List Value} {d : Config}
    (h : deliver result (.overloads older missing args) p s = some d) :
    Moves ⟨.dispatched result, .overloads older missing args :: p, s⟩ d := by
  unfold deliver at h
  split at h
  next work older' missing' args' hwork =>
    obtain ⟨control, works, heq, hcontrol, hworks⟩ :=
      tryNext_moves true args' p older' s
    rw [heq] at h
    cases h
    exact .answer works trivial hcontrol hworks rfl
  next work older' missing' args' hwork =>
    obtain ⟨control, works, heq, hcontrol, hworks⟩ :=
      tryNext_moves missing' args' p older' s
    rw [heq] at h
    cases h
    exact .answer works trivial hcontrol hworks rfl
  next =>
    cases h
    exact .answer [] trivial trivial (by simp) rfl
  all_goals cases ‹Pending.overloads _ _ _ = _›

theorem native_moves {result : Except Fault Dispatch} {args : List Value} {resume : Resume}
    {d : Config} (hcalm : ¬ Resets host ⟨.dispatched result, .native args resume :: p, s⟩)
    (hstep : step host ⟨.dispatched result, .native args resume :: p, s⟩ = some d) :
    Moves ⟨.dispatched result, .native args resume :: p, s⟩ d := by
  have hreply : ∀ {answer s'}, s'.context = s.context →
      Replies ⟨.dispatched result, .native args resume :: p, s⟩ answer s' resume p →
      Moves ⟨.dispatched result, .native args resume :: p, s⟩ d := by
    intro answer s' hs' h
    obtain ⟨control, works, t, rfl, hcontrol, hworks, ht⟩ := reply_moves h hcalm hstep
    exact .answer works trivial hcontrol hworks (ht.trans hs')
  cases result with
  | error f => exact hreply rfl .failed
  | ok chosen =>
    cases chosen with
    | settled result => exact hreply rfl .settled
    | enter r =>
      by_cases hdepth : s.context.depth < Capacity.frames
      · obtain ⟨f, s', hpush, hsaved, hs'⟩ := pushFrame_eq_ok hdepth
          (s.machine.store.closure r) args (s.machine.store.closure r).entry
          (s.machine.store.closure r).entry s.context.sp
        unfold step deliver runClosure at hstep
        dsimp only at hstep
        rw [hpush] at hstep
        cases hstep
        exact .start rfl hsaved hs' hdepth
      · exact hreply rfl (.crowded (pushFrame_eq_error hdepth _ _ _ _ _))

/-- Every step in which no native empties the context is one of the moves. -/
theorem moves_of_step {c d : Config} (hstep : step host c = some d) (hcalm : ¬ c.Resets host)
    (hroom : c.state.context.sp ≤ Capacity.stack) : Moves c d := by
  obtain ⟨control, pending, s⟩ := c
  cases control with
  | run base ip =>
    cases hstep
    exact fetch_moves hroom base ip pending
  | dispatch callee args =>
    cases hstep
    exact dispatch_moves hcalm
  | dispatched result =>
    cases pending with
    | nil => cases hstep
    | cons work rest =>
      cases work with
      | overloads older missing args => exact overloads_moves hstep
      | native args resume => exact native_moves hcalm hstep
      | nested base savedSp entry resume =>
        cases result with
        | error f => cases hstep
        | ok chosen => rcases chosen with (_ | _ | _) | _ <;> cases hstep
      | call base pos next count callee =>
        cases result with
        | error f =>
          cases hstep
          exact .finish .fault
        | ok chosen =>
          cases hstep
          obtain ⟨control, t, heq, heffect⟩ :=
            finishCall_effect hroom base pos next count callee rest chosen
          rw [heq]
          exact .finish heffect
  | exited result =>
    cases pending with
    | nil => cases hstep
    | cons work rest =>
      cases work with
      | nested base savedSp entry resume =>
        obtain ⟨control, works, t, rfl, hcontrol, hworks, ht⟩ := reply_moves .ended hcalm hstep
        exact .close works hcontrol hworks ht
      | _ => cases hstep

end Config

theorem Context.sp_abandon_le (base : Base) (c : Context) : (c.abandon base).sp ≤ c.sp := by
  unfold abandon
  split
  · exact (keepOldest_suffix _ _).length_le
  · exact Nat.le_refl _

theorem Effect.control_cases {base : Base} {op : Opcode} {n : Nat} {c c' : Context}
    {control : Control} (h : Effect base op n c control c') :
    (∃ ip, control = .run base ip) ∨ ∃ result, control = .exited result := by
  cases h with
  | trade | install | uninstall | enter | ret | caught => exact Or.inl ⟨_, rfl⟩
  | leave | halt | escape | fault => exact Or.inr ⟨_, rfl⟩

theorem Effect.sp_le {base : Base} {op : Opcode} {n : Nat} {c c' : Context} {control : Control}
    (h : Effect base op n c control c') (hroom : c.sp ≤ Capacity.stack) :
    c'.sp ≤ Capacity.stack := by
  cases h with
  | trade htrade => exact htrade.room hroom
  | install => exact hroom
  | uninstall => exact hroom
  | enter =>
    refine Nat.le_trans ?_ hroom
    exact (List.drop_suffix _ _).length_le
  | ret hstack =>
    simp only [Context.sp, hstack, List.length_cons, length_keepOldest] at hroom ⊢
    omega
  | leave hstack =>
    simp only [Context.sp, hstack, List.length_cons, length_keepOldest] at hroom ⊢
    omega
  | halt _ htrade => exact htrade.room hroom
  | caught _ htrade hlt =>
    simp only [Context.sp, List.length_cons, length_keepOldest] at hlt ⊢
    omega
  | escape _ htrade => exact Nat.le_trans (Context.sp_abandon_le _ _) (htrade.room hroom)
  | fault => exact hroom

namespace Config
variable {host : Host} {c d : Config}

theorem finishRun_sp_le (base : Base) (savedSp entry : Nat) (s : State)
    (result : Except Fault Exit) :
    (finishRun base savedSp entry s result).2.context.sp ≤ s.context.sp := by
  have hrestore : (restore base savedSp s).context.sp ≤ s.context.sp :=
    (keepOldest_suffix _ _).length_le
  cases result with
  | error f => exact hrestore
  | ok e =>
    cases e with
    | halted v => exact hrestore
    | returned v => exact Nat.le_refl _
    | raised v => exact Nat.le_refl _

theorem Replies.sp_le {answer : Except Fault MethodResult} {s : State} {resume : Resume}
    {rest : List Pending} (h : Replies c answer s resume rest) :
    s.context.sp ≤ c.state.context.sp := by
  cases h with
  | settled => exact Nat.le_refl _
  | failed => exact Nat.le_refl _
  | crowded hfull => exact Nat.le_of_eq (by rw [state_eq_of_pushFrame_error hfull])
  | ended => exact finishRun_sp_le _ _ _ _ _

theorem act_context (p : List Pending) (a : Action) (s : State) :
    (act p a s).state.context = s.context ∨ (act p a s).state.context = .new := by
  induction a generalizing s with
  | done result => exact Or.inl rfl
  | fault f => exact Or.inl rfl
  | edit e resume ih => exact ih _ _
  | call callee args resume ih =>
    cases callee with
    | func f => exact Or.inl rfl
    | _ => exact ih _ _ _
  | define native resume ih => exact ih _ _
  | reset resume ih => exact Or.inr ((ih { s with context := .new }).elim id id)

theorem Moves.sp_le (h : Moves c d) (hroom : c.state.context.sp ≤ Capacity.stack) :
    d.state.context.sp ≤ Capacity.stack := by
  cases h with
  | fetch _ heffect => exact heffect.sp_le hroom
  | stuck => exact hroom
  | invoke => exact hroom
  | finish heffect => exact heffect.sp_le hroom
  | choose _ _ _ hcontext => exact hcontext ▸ hroom
  | answer _ _ _ _ hcontext => exact hcontext ▸ hroom
  | start _ _ hcontext =>
    rw [hcontext]
    exact hroom
  | close _ _ _ hcontext =>
    rw [hcontext]
    exact Nat.le_trans (finishRun_sp_le _ _ _ _ _) hroom

/-- No step overfills the stack, not even one in which a native empties it. -/
theorem step_sp_le (hstep : step host c = some d)
    (hroom : c.state.context.sp ≤ Capacity.stack) : d.state.context.sp ≤ Capacity.stack := by
  by_cases hcalm : c.Resets host
  · obtain ⟨a, rest, s, hresumes, -⟩ := hcalm
    have hs : s.context.sp ≤ Capacity.stack := by
      cases hresumes with
      | start => exact hroom
      | reply hreply => exact Nat.le_trans hreply.sp_le hroom
    rw [step_of_resumes hresumes] at hstep
    cases hstep
    rcases act_context rest a s with h | h
    · exact h ▸ hs
    · exact h ▸ Nat.zero_le _
  · exact (moves_of_step hstep hcalm hroom).sp_le hroom

theorem Reaches.sp_le (h : c.Reaches host d) (hroom : c.state.context.sp ≤ Capacity.stack) :
    d.state.context.sp ≤ Capacity.stack :=
  h.induct hroom fun _ _ _ hm hstep => step_sp_le hstep hm

end Config

theorem Context.Reachable.sp_le {host : Host} {ctx : Context} (h : ctx.Reachable host) :
    ctx.sp ≤ Capacity.stack := by
  induction h with
  | new => exact Nat.zero_le _
  | during _ hreaches ih => exact hreaches.sp_le ih
  | after _ hrun ih =>
    obtain ⟨⟨exit, s⟩, hrun, hfinish⟩ := Option.map_eq_some_iff.mp hrun
    obtain ⟨c, hreaches, hresult⟩ := Config.exists_reaches_of_run hrun
    obtain ⟨-, -, rfl⟩ := Config.control_of_result? hresult
    have hroom := hreaches.sp_le ih
    cases exit with
    | error f =>
      cases hfinish
      exact hroom
    | ok e => cases e <;> (cases hfinish; exact hroom)

end StackVM
