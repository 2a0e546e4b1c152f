import StackVM.Proofs.Machine.Twin.Choice

/-! # Runs side by side

A step of a configuration is matched by a step of its twin, as long as it stays above the floor: it
looks at no value of the floor, leaves no frame of it, and asks nothing of a native that would see
the difference. The only exception is a stack that overflows over the second floor and not over the
first one.
-/
namespace StackVM
namespace Config
variable {σ : Shift} {host : Host} {rest rest' p p' : List Pending} {m : Machine} {r : Context}
  {base base' : Base} {pos next : Nat}

/-- A run goes on in the same way after an instruction that had the same result. -/
theorem proceed_matches {x y : EStateM.Result Fault State Step} {step : Step}
    (hbase : σ.Bases base base') (hp : List.Forall₂ σ.Works p p')
    (hx : x = .ok step (σ.here m r))
    (hy : y = .ok step (σ.there m r) ∨ step.Goes ∧ σ.Overflows r ∧ ∃ e t, y = .error e t)
    (hsound : ∀ f, (proceed base pos next (p ++ rest) x).control ≠ .exited (.error f))
    (hstay : base.frames < σ.low.depth →
      σ.low.depth ≤ (proceed base pos next (p ++ rest) x).state.context.depth ∧
        ∀ result, (proceed base pos next (p ++ rest) x).control ≠ .exited result) :
    σ.Matches rest rest' (proceed base pos next (p ++ rest) x)
      (proceed base' pos next (p' ++ rest') y) := by
  subst hx
  have hcrowded : ∀ {ip : Nat} {r' : Context} {m' : Machine}, σ.Overflows r' →
      σ.Overfull ⟨.run base ip, p ++ rest, σ.here m' r'⟩ := by
    rintro ip r' m' ⟨hfits, hover⟩
    refine ⟨⟨base, ip, rfl⟩, ?_, ?_⟩ <;> rw [σ.context_here, Context.sp_on] <;> omega
  rcases hy with rfl | ⟨hgoes, hover, e, t, rfl⟩
  · cases step with
    | next => exact .inl (.intro m r (.run next hbase) hp)
    | jump target => exact .inl (.intro m r (.run target hbase) hp)
    | exit e => exact .inl (.intro m r (.exited _) hp)
    | invoke callee args =>
      exact .inl (.intro m r (.dispatch callee args) (.cons (.call _ _ _ _ hbase) hp))
    | raise v =>
      unfold proceed at hsound hstay ⊢
      dsimp only at hsound hstay ⊢
      cases hres : Exec.unwind base pos v (σ.here m r) with
      | error f s =>
        rw [hres] at hsound
        exact absurd rfl (hsound f)
      | ok u s =>
        rw [hres] at hstay
        obtain ⟨r', rfl, hthere⟩ := Exec.unwind_follows hbase hres fun hlt => by
          obtain ⟨hdepth, hexit⟩ := hstay hlt
          cases u with
          | caught => exact ⟨hdepth, nofun⟩
          | uncaught => exact absurd rfl (hexit _)
        rcases hthere with hthere | ⟨⟨ip, rfl⟩, hover, e, t, hthere⟩
        · rw [hthere]
          cases u with
          | caught ip => exact .inl (.intro m r' (.run ip hbase) hp)
          | uncaught w => exact .inl (.intro m r' (.exited _) hp)
        · rw [hthere]
          exact .inr ⟨hcrowded hover, e, rfl⟩
  · cases step with
    | next => exact .inr ⟨hcrowded hover, e, rfl⟩
    | jump target => exact .inr ⟨hcrowded hover, e, rfl⟩
    | exit | invoke | raise => exact hgoes.elim

/-- How many of the newest values an instruction looks at with the next step. -/
def reach (c : Config) : Nat :=
  match c.control, c.pending with
  | .run _ ip, _ =>
    match c.state.machine.program.decodeAt ip with
    | .error _ => 0
    | .ok (i, _) => i.reach
  | .dispatched _, .call _ _ _ count _ :: _ => count + 1
  | _, _ => 0

/-- The base of the run whose instruction the next step belongs to. -/
def base? (c : Config) : Option Base :=
  match c.control, c.pending with
  | .run base _, _ => some base
  | .dispatched _, .call base _ _ _ _ :: _ => some base
  | _, _ => none

/-- The next step does not need the work that is pending below. -/
def Clear (rest : List Pending) (c : Config) : Prop :=
  match c.control with
  | .run _ _ | .dispatch _ _ => True
  | .dispatched _ | .exited _ => rest.length < c.pending.length

theorem clear_of_step {host : Host} {c d : Config} (h : step host c = some d) : c.Clear [] := by
  obtain ⟨control, pending, s⟩ := c
  cases control with
  | run | dispatch => trivial
  | dispatched | exited =>
    cases pending with
    | nil => cases h
    | cons => exact Nat.succ_pos _

end Config

/-- The step stays above the floor, so that the other run can follow. -/
structure Shift.Allows (σ : Shift) (host : Host) (rest : List Pending) (x x' : Config) : Prop where
  clear : x.Clear rest
  calm : ¬ x.Resets host
  sound : ∀ f, x'.control ≠ .exited (.error f)
  within : σ.low.sp + x.reach ≤ x.state.context.sp ∨ (σ.low.stack = [] ∧ σ.high.stack = [])
  blind : ∀ ref args run, x.control = .dispatch (.native ref) args →
    (x.state.machine.store.native ref).code.body host = .contextual run →
    ∀ m r, σ.Alike (run (σ.here m r) args) (run (σ.there m r) args)
  stays : ∀ base, x.base? = some base → base.frames < σ.low.depth →
    σ.low.depth ≤ x'.state.context.depth ∧ ∀ result, x'.control ≠ .exited result

namespace Config
variable {σ : Shift} {host : Host} {rest rest' p p' : List Pending} {m : Machine} {r : Context}
  {base base' : Base} {pos next : Nat} {x x' y : Config}

theorem fetch_matches {ip : Nat} (hbase : σ.Bases base base') (hp : List.Forall₂ σ.Works p p')
    (hallows : σ.Allows host rest ⟨.run base ip, p ++ rest, σ.here m r⟩
      (fetch base ip (p ++ rest) (σ.here m r))) :
    σ.Matches rest rest' (fetch base ip (p ++ rest) (σ.here m r))
      (fetch base' ip (p' ++ rest') (σ.there m r)) := by
  have hsound := hallows.sound
  have hstay := hallows.stays base rfl
  have hwithin := hallows.within
  cases hdecode : m.program.decodeAt ip with
  | error e =>
    have hlow : fetch base ip (p ++ rest) (σ.here m r) =
        ⟨.exited (.error (Fault.ofDecode ip e)), p ++ rest, σ.here m r⟩ := by
      simp only [fetch, Shift.here, hdecode]
    rw [hlow] at hsound
    exact absurd rfl (hsound _)
  | ok found =>
    obtain ⟨i, next⟩ := found
    have hlow : fetch base ip (p ++ rest) (σ.here m r) =
        proceed base ip next (p ++ rest) (Exec.instr base ip next i (σ.here m r)) := by
      simp only [fetch, Shift.here, hdecode]
    have hhigh : fetch base' ip (p' ++ rest') (σ.there m r) =
        proceed base' ip next (p' ++ rest') (Exec.instr base' ip next i (σ.there m r)) := by
      simp only [fetch, Shift.there, Machine.extend, Program.decodeAt_append hdecode]
    rw [hlow] at hsound hstay ⊢
    rw [hhigh]
    cases hres : Exec.instr base ip next i (σ.here m r) with
    | error f s =>
      rw [hres] at hsound
      exact absurd rfl (hsound f)
    | ok step s =>
      rw [hres] at hsound hstay
      have hr : σ.Within i.reach r := by
        have hreach : reach ⟨.run base ip, p ++ rest, σ.here m r⟩ = i.reach := by
          simp only [reach, Shift.here, hdecode]
        rw [hreach, σ.context_here, Context.sp_on] at hwithin
        exact hwithin.imp_left fun hle => by omega
      obtain ⟨m', r', rfl, hthere⟩ := Exec.instr_twin hbase hr hres fun hlt => by
        obtain ⟨hdepth, hexit⟩ := hstay hlt
        cases step with
        | next | jump => exact ⟨fun _ => hdepth, by simp⟩
        | raise | invoke => exact ⟨fun hgoes => hgoes.elim, by simp⟩
        | exit => exact absurd rfl (hexit _)
      exact proceed_matches hbase hp rfl hthere hsound hstay

theorem finish_matches {count : Nat} {callee : Function} {d : Dispatch}
    (hbase : σ.Bases base base') (hp : List.Forall₂ σ.Works p p')
    (hallows : σ.Allows host rest
      ⟨.dispatched (.ok d), .call base pos next count callee :: (p ++ rest), σ.here m r⟩
      (proceed base pos next (p ++ rest) (finishCall pos next count callee d (σ.here m r)))) :
    σ.Matches rest rest'
      (proceed base pos next (p ++ rest) (finishCall pos next count callee d (σ.here m r)))
      (proceed base' pos next (p' ++ rest')
        (finishCall pos next count callee d (σ.there m r))) := by
  have hsound := hallows.sound
  have hstay := hallows.stays base rfl
  cases hres : finishCall pos next count callee d (σ.here m r) with
  | error f s =>
    rw [hres] at hsound
    exact absurd rfl (hsound f)
  | ok step s =>
    rw [hres] at hsound hstay
    have hr : σ.Within (count + 1) r := by
      have hwithin := hallows.within
      simp only [reach, σ.context_here, Context.sp_on] at hwithin
      exact hwithin.imp_left fun hle => by omega
    obtain ⟨m', r', rfl, hthere⟩ :=
      Exec.finishCall_follows count callee d m r step s hr hres
    exact proceed_matches hbase hp rfl hthere hsound hstay

theorem deliver_matches {result : Except Fault Dispatch} {work work' : Pending}
    (hwork : σ.Works work work') (hp : List.Forall₂ σ.Works p p')
    (hx : deliver result work (p ++ rest) (σ.here m r) = some x')
    (hallows : σ.Allows host rest ⟨.dispatched result, work :: (p ++ rest), σ.here m r⟩ x') :
    ∃ y', deliver result work' (p' ++ rest') (σ.there m r) = some y' ∧
      σ.Matches rest rest' x' y' := by
  have hcalm : ∀ {answer s k}, Replies ⟨.dispatched result, work :: (p ++ rest), σ.here m r⟩
      answer s k (p ++ rest) → ¬ (k answer s).Resets s := fun hreply hresets =>
    hallows.calm ⟨_, _, _, .reply hreply, hresets⟩
  cases hwork with
  | overloads older missing args =>
    have hpass : deliver result (.overloads older missing args) (p ++ rest) (σ.here m r) =
          some ⟨.dispatched result, p ++ rest, σ.here m r⟩ →
        deliver result (.overloads older missing args) (p' ++ rest') (σ.there m r) =
          some ⟨.dispatched result, p' ++ rest', σ.there m r⟩ →
        ∃ y', deliver result (.overloads older missing args) (p' ++ rest') (σ.there m r) =
          some y' ∧ σ.Matches rest rest' x' y' := by
      intro hlow hhigh
      rw [hlow] at hx
      cases hx
      exact ⟨_, hhigh, .inl (.intro m r (.dispatched result) hp)⟩
    cases result with
    | error f => exact hpass rfl rfl
    | ok d =>
      cases d with
      | enter c => exact hpass rfl rfl
      | settled result =>
        cases result with
        | ok v => exact hpass rfl rfl
        | exception v => exact hpass rfl rfl
        | failed why =>
          cases why <;> cases hx <;> exact ⟨_, rfl, .inl (tryNext_twins _ args hp m r older)⟩
  | native args hk =>
    cases result with
    | error f =>
      cases hx
      exact ⟨_, rfl, .inl (act_twins (hk _ _ _) hp (hcalm .failed))⟩
    | ok d =>
      cases d with
      | settled result =>
        cases hx
        exact ⟨_, rfl, .inl (act_twins (hk _ _ _) hp (hcalm .settled))⟩
      | enter c =>
        cases hx
        exact ⟨_, rfl, .inl (runClosure_twins c args hk hp hallows.calm)⟩
  | call pos next count callee hbase =>
    cases result with
    | error f =>
      cases hx
      exact absurd rfl (hallows.sound f)
    | ok d =>
      cases hx
      exact ⟨_, rfl, finish_matches hbase hp hallows⟩
  | nested => cases hx

theorem finishRun_on (hframes : σ.low.depth ≤ base.frames)
    (hhandlers : σ.low.handlerCount ≤ base.handlers) (height entry : Nat) (m : Machine)
    (r : Context) (result : Except Fault Exit) :
    ∃ answer r', finishRun base (height + σ.low.sp) entry (σ.here m r) result =
        (answer, σ.here m r') ∧
      finishRun base (height + σ.high.sp) entry (σ.there m r) result =
        (answer, σ.there m r') := by
  have hrestore : ∃ r', restore base (height + σ.low.sp) (σ.here m r) = σ.here m r' ∧
      restore base (height + σ.high.sp) (σ.there m r) = σ.there m r' := by
    refine ⟨_, restore_on hframes hhandlers r, ?_⟩
    rw [← σ.depth, ← σ.handlerCount] at *
    exact restore_on hframes hhandlers r
  obtain ⟨r', hlow, hhigh⟩ := hrestore
  cases result with
  | error f => exact ⟨.error f, r', by rw [← hlow]; rfl, by rw [← hhigh]; rfl⟩
  | ok e =>
    cases e with
    | returned v => exact ⟨_, r, rfl, rfl⟩
    | raised v => exact ⟨_, r, rfl, rfl⟩
    | halted v =>
      exact ⟨.error ⟨entry, .unexpectedHalt⟩, r', by rw [← hlow]; rfl, by rw [← hhigh]; rfl⟩

end Config

namespace Shift.Twins
variable {σ : Shift} {host : Host} {rest rest' : List Pending} {x x' y : Config}

theorem step (h : σ.Twins rest rest' x y) (hx : Config.step host x = some x')
    (hallows : σ.Allows host rest x x') :
    ∃ y', Config.step host y = some y' ∧ σ.Matches rest rest' x' y' := by
  obtain @⟨control, control', p, p', m, r, hcontrol, hp⟩ := h
  have hclear := hallows.clear
  cases hcontrol with
  | run ip hbase =>
    cases hx
    exact ⟨_, rfl, Config.fetch_matches hbase hp hallows⟩
  | dispatch callee args =>
    cases hx
    refine ⟨_, rfl, .inl (Config.dispatch_twins callee args hp hallows.calm ?_)⟩
    rintro ref run rfl hrun
    exact hallows.blind ref args run rfl hrun m r
  | dispatched result =>
    cases hp with
    | nil => exact absurd hclear (Nat.lt_irrefl _)
    | cons hwork hp => exact Config.deliver_matches hwork hp hx hallows
  | exited result =>
    cases hp with
    | nil => exact absurd hclear (Nat.lt_irrefl _)
    | cons hwork hp =>
      cases hwork with
      | nested height entry hframes hhandlers hk =>
        obtain ⟨answer, r', hlow, hhigh⟩ :=
          Config.finishRun_on hframes hhandlers height entry m r result
        have hcalm := fun hresets => hallows.calm ⟨_, _, _, .reply .ended, hresets⟩
        rw [List.cons_append, Config.step_of_replies .ended] at hx
        rw [hlow] at hx hcalm
        cases hx
        refine ⟨_, Config.step_of_replies .ended, .inl ?_⟩
        rw [hhigh]
        exact Config.act_twins (hk answer m r') hp hcalm
      | call | overloads | native => cases hx

/-- A stretch of a run that stays above the floor is matched step by step, unless the stack gives
out in the other run before it is over. -/
theorem trace {cs : List Config} (h : σ.Twins rest rest' x y) (htrace : Config.Trace host x cs x')
    (hcs : ∀ z ∈ cs, ∀ z', Config.step host z = some z' → σ.Allows host rest z z') :
    ∃ ys y', Config.Trace host y ys y' ∧
      ((σ.Twins rest rest' x' y' ∧ List.Forall₂ (σ.Twins rest rest') cs ys) ∨
        ∃ zs z z' f, zs ++ [z] <+: cs ∧ Config.step host z = some z' ∧ σ.Overfull z' ∧
          List.Forall₂ (σ.Twins rest rest') (zs ++ [z]) ys ∧ y'.control = .exited (.error f)) := by
  induction htrace generalizing y with
  | refl => exact ⟨[], y, .refl y, .inl ⟨h, .nil⟩⟩
  | @cons x d e cs hstep _ ih =>
    obtain ⟨hx, hrest⟩ := List.forall_mem_cons.mp hcs
    obtain ⟨y₁, hy, htwins | ⟨hover, f, hf⟩⟩ := h.step hstep (hx d hstep)
    · obtain ⟨ys, y', hys, ⟨hlast, hall⟩ | ⟨zs, z, z', f, hprefix, hz, hover, hall, hf⟩⟩ :=
        ih htwins hrest
      · exact ⟨y :: ys, y', .cons hy hys, .inl ⟨hlast, .cons h hall⟩⟩
      · exact ⟨y :: ys, y', .cons hy hys, .inr ⟨x :: zs, z, z', f,
          List.cons_prefix_cons.mpr ⟨rfl, hprefix⟩, hz, hover, .cons h hall, hf⟩⟩
    · exact ⟨[y], y₁, .cons hy (.refl _), .inr ⟨[], x, d, f,
        List.cons_prefix_cons.mpr ⟨rfl, List.nil_prefix⟩, hstep, hover, .cons h .nil, hf⟩⟩

end Shift.Twins

end StackVM
