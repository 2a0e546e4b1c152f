import StackVM.Proofs.Machine.Twin.Floor

/-! # Instructions over both floors

A run that was started below the floors of a shift, or at the same place over each of them, finds
the same handlers of its own over both. So the instructions that catch, return and halt do the same
to the upper part of the context, and with them all instructions do.
-/
namespace StackVM

/-- The run was started below the floor, and its handlers in it were installed outside of the call
whose frame is the newest one. -/
structure Base.Below (floor : Context) (base : Base) : Prop where
  frames : base.frames < floor.depth
  handlers : base.handlers ≤ floor.handlerCount
  outside : ∀ h rest, floor.handlers = h :: rest → base.handlers ≤ rest.length →
    h.frames < floor.depth

/-- Two runs over the floors of a shift: one and the same that was started above the floors, or the
two that were started below them. -/
inductive Shift.Bases (σ : Shift) : Base → Base → Prop
  | above {base : Base} : σ.low.depth ≤ base.frames → σ.low.handlerCount ≤ base.handlers →
      Bases σ base base
  | below {base base' : Base} : σ.runs = some (base, base') → base.Below σ.low →
      base'.Below σ.high → Bases σ base base'

namespace Exec
variable {σ : Shift} {base base' : Base} {pos next : Nat} {m : Machine} {r : Context} {s : State}
  {step : Step} {v : Value}

theorem ret_apply {below : List Value} {f : Frame} {frames : List Frame}
    (hstack : s.context.stack = v :: below) (hframes : s.context.frames = f :: frames)
    (hsaved : f.savedSp ≤ below.length) (hown : base.frames ≤ frames.length) :
    ret base pos s =
      (if base.nested ∧ frames.length = base.frames then return .exit (.returned v)
        else push pos v >>= fun _ => return .jump f.returnIp)
        { s with context := ⟨keepOldest f.savedSp below, frames,
            dropHandlers base.handlers s.context.depth s.context.handlers⟩ } := by
  have hdepth : s.context.depth = frames.length + 1 := by simp [Context.depth, hframes]
  have hsp : s.context.sp = below.length + 1 := by simp [Context.sp, hstack]
  simp only [ret, bind_apply, frame, hframes, context]
  rw [if_neg (by omega)]
  simp only [bind_apply, context]
  rw [if_neg (by omega)]
  simp only [bind_apply, pop, hstack, modifyContext, hframes, List.tail_cons]
  have hiff : (base.nested = true ∧ s.context.depth - 1 = base.frames) ↔
      (base.nested = true ∧ frames.length = base.frames) := by
    rw [hdepth, Nat.add_sub_cancel]
  by_cases hexit : base.nested = true ∧ frames.length = base.frames
  · rw [if_pos (hiff.mpr hexit), if_pos hexit]
  · rw [if_neg (fun h => hexit (hiff.mp h)), if_neg hexit]

theorem unwind_some {h : Handler} (hown : ownHandler? base s.context = some h) :
    unwind base pos v s =
      if min h.sp s.context.sp < Capacity.stack then
        .ok (.caught h.catchIp)
          { s with context := ⟨v :: keepOldest h.sp s.context.stack,
            keepOldest h.frames s.context.frames, s.context.handlers.tail⟩ }
      else .error ⟨pos, .stackOverflow⟩ s := by
  simp only [unwind, bind_apply, context, hown]
  by_cases hroom : min h.sp s.context.sp < Capacity.stack
  · rw [if_pos hroom, if_pos hroom]
    rfl
  · rw [if_neg hroom, if_neg hroom]
    rfl

theorem ownHandler?_on (hbase : σ.Bases base base') (r : Context) :
    (∃ h hs, r.handlers = h :: hs ∧ ownHandler? base (r.on σ.low) = some (h.lift σ.low) ∧
        ownHandler? base' (r.on σ.high) = some (h.lift σ.high)) ∨
      (σ.low.depth ≤ base.frames ∧ base' = base ∧ ownHandler? base (r.on σ.low) = none ∧
        ownHandler? base' (r.on σ.high) = none) ∨
      base.frames < σ.low.depth ∧ r.handlers = [] := by
  cases hr : r.handlers with
  | nil =>
    cases hbase with
    | above hframes hhandlers =>
      have hcount : r.handlerCount = 0 := by simp [Context.handlerCount, hr]
      refine .inr (.inl ⟨hframes, rfl, ?_, ?_⟩) <;> rw [ownHandler?_eq_none_iff] <;>
        refine Nat.le_trans (Nat.le_of_eq (Context.handlerCount_on _ _)) ?_
      · omega
      · have := σ.handlerCount
        omega
    | below _ hbelow => exact .inr (.inr ⟨hbelow.frames, rfl⟩)
  | cons h hs =>
    have hlow : (r.on σ.low).handlers.head? = some (h.lift σ.low) := by simp [Context.on, hr]
    have hhigh : (r.on σ.high).handlers.head? = some (h.lift σ.high) := by simp [Context.on, hr]
    simp only [ownHandler?, Context.handlerCount_on, σ.handlerCount, hlow, hhigh]
    cases hbase with
    | above hframes =>
      by_cases hlt : base.handlers < r.handlerCount + σ.low.handlerCount
      · rw [if_pos hlt, if_pos hlt]
        exact .inl ⟨h, hs, rfl, rfl, rfl⟩
      · rw [if_neg hlt, if_neg hlt]
        exact .inr (.inl ⟨hframes, rfl, rfl, rfl⟩)
    | below _ hbelow hbelow' =>
      have hhandlers := hbelow.handlers
      have hhandlers' := hbelow'.handlers
      rw [σ.handlerCount] at hhandlers'
      have hcount : r.handlerCount = hs.length + 1 := by simp [Context.handlerCount, hr]
      rw [if_pos (by omega), if_pos (by omega)]
      exact .inl ⟨h, hs, rfl, rfl, rfl⟩

theorem unwind_follows (hbase : σ.Bases base base') {u : Unwound}
    (hok : unwind base pos v (σ.here m r) = .ok u s)
    (hstay : base.frames < σ.low.depth →
      σ.low.depth ≤ s.context.depth ∧ u ≠ .uncaught v) :
    ∃ r', s = σ.here m r' ∧ (unwind base' pos v (σ.there m r) = .ok u (σ.there m r') ∨
      (∃ ip, u = .caught ip) ∧ σ.Overflows r' ∧
        ∃ e t, unwind base' pos v (σ.there m r) = .error e t) := by
  rcases ownHandler?_on hbase r with ⟨h, hs, hr, hlow, hhigh⟩ |
    ⟨hframes, rfl, hlow, hhigh⟩ | ⟨hbelow, hr⟩
  · rw [unwind_some hlow, σ.context_here] at hok
    rw [unwind_some hhigh, σ.context_there]
    by_cases hroom : min (h.lift σ.low).sp (r.on σ.low).sp < Capacity.stack
    · rw [if_pos hroom] at hok
      cases hok
      refine ⟨⟨v :: keepOldest h.sp r.stack, keepOldest h.frames r.frames, hs⟩, ?_, ?_⟩
      · exact congrArg (State.mk m) (Context.caught_on hr v σ.low)
      by_cases hthere : min (h.lift σ.high).sp (r.on σ.high).sp < Capacity.stack
      · rw [if_pos hthere]
        refine .inl (congrArg (EStateM.Result.ok _) ?_)
        exact congrArg (State.mk _) (Context.caught_on hr v σ.high)
      · rw [if_neg hthere]
        refine .inr ⟨⟨_, rfl⟩, ?_, _, _, rfl⟩
        simp only [Handler.lift, Context.sp_on] at hroom hthere
        simp only [Shift.Overflows, Context.sp, List.length_cons, length_keepOldest] at *
        omega
    · rw [if_neg hroom] at hok
      cases hok
  · rw [unwind_uncaught hlow] at hok
    cases hok
    refine ⟨_, congrArg (State.mk m) (Context.abandon_on hframes r), .inl ?_⟩
    rw [unwind_uncaught hhigh]
    refine congrArg (EStateM.Result.ok _) (congrArg (State.mk _) ?_)
    rw [← σ.depth] at hframes ⊢
    exact Context.abandon_on hframes r
  · exfalso
    obtain ⟨hdepth, hcaught⟩ := hstay hbelow
    cases hown : ownHandler? base (σ.here m r).context with
    | none =>
      rw [unwind_uncaught hown] at hok
      cases hok
      exact hcaught rfl
    | some h =>
      rw [unwind_some hown] at hok
      split at hok
      next =>
        cases hok
        obtain ⟨hs, hhandlers, hle⟩ := ownHandler?_eq_some_iff.mp hown
        simp only [Shift.here, Context.on, hr, List.map_nil, List.nil_append] at hhandlers
        cases hbase with
        | above hframes => omega
        | below _ hfloor =>
          have hlt := hfloor.outside h hs hhandlers hle
          simp only [Context.depth, length_keepOldest] at hdepth hlt
          omega
      next => cases hok

theorem tryEnd_follows (hbase : σ.Bases base base')
    (hok : tryEnd base pos (σ.here m r) = .ok step s) :
    ∃ r', s = σ.here m r' ∧ tryEnd base' pos (σ.there m r) = .ok step (σ.there m r') := by
  obtain ⟨rfl, e, rest, hhandlers, hle, hdepth, rfl⟩ := tryEnd_eq_ok hok
  have hown := ownHandler?_eq_some_iff.mpr ⟨rest, hhandlers, hle⟩
  rcases ownHandler?_on hbase r with ⟨h, hs, hr, hlow, hhigh⟩ | ⟨-, rfl, hlow, -⟩ | ⟨hbelow, hr⟩
  · cases hlow.symm.trans hown
    have hrest : rest = hs.map (Handler.lift σ.low) ++ σ.low.handlers := by
      simpa [Shift.here, Context.on, hr] using hhandlers.symm
    refine ⟨{ r with handlers := hs }, by rw [hrest]; rfl, ?_⟩
    have hframes : h.frames = r.depth := by
      simpa [Shift.here, Handler.lift] using hdepth
    have hthere : (ownHandler? base' (σ.there m r).context).any
        (·.frames == (σ.there m r).context.depth) = true := by
      simp only [Shift.there, hhigh, Option.any_some, Context.depth_on, Handler.lift, hframes,
        beq_self_eq_true]
    simp only [tryEnd, bind_apply, context]
    rw [if_pos hthere]
    simp only [bind_apply, modifyContext, Shift.there, Context.on, hr, List.map_cons,
      List.cons_append, List.tail_cons]
    rfl
  · rw [σ.context_here, hlow] at hown
    cases hown
  · simp only [Shift.here, Context.on, hr, List.map_nil, List.nil_append] at hhandlers
    cases hbase with
    | above hframes => omega
    | below _ hfloor =>
      have hlt := hfloor.outside e rest hhandlers hle
      rw [hdepth, Shift.here, Context.depth_on] at hlt
      omega

/-- No return drops a handler of the floors. -/
theorem dropHandlers_bases (hbase : σ.Bases base base') (depth : Nat) :
    dropHandlers base.handlers (depth + σ.low.depth) σ.low.handlers = σ.low.handlers ∧
      dropHandlers base'.handlers (depth + σ.high.depth) σ.high.handlers = σ.high.handlers := by
  have hbelow : ∀ {base floor}, Base.Below floor base →
      dropHandlers base.handlers (depth + floor.depth) floor.handlers = floor.handlers :=
    fun h => dropHandlers_eq_self fun e rest heq hle =>
      Nat.lt_of_lt_of_le (h.outside e rest heq hle) (Nat.le_add_left _ _)
  have habove : ∀ {floor : Context}, floor.handlerCount ≤ base.handlers →
      dropHandlers base.handlers (depth + floor.depth) floor.handlers = floor.handlers := by
    refine fun hle => dropHandlers_eq_self fun e rest heq hown => ?_
    rw [Context.handlerCount, heq, List.length_cons] at hle
    omega
  cases hbase with
  | above _ hhandlers => exact ⟨habove hhandlers, habove (σ.handlerCount ▸ hhandlers)⟩
  | below _ hlow hhigh => exact ⟨hbelow hlow, hbelow hhigh⟩

theorem ret_on {floor : Context} {above : List Value} {f : Frame} {frames : List Frame}
    (hstack : r.stack = v :: above) (hframes : r.frames = f :: frames)
    (hsaved : f.savedSp ≤ above.length) (hown : base.frames ≤ frames.length + floor.depth)
    (hfloor : dropHandlers base.handlers (r.depth + floor.depth) floor.handlers =
      floor.handlers) :
    ret base pos ⟨m, r.on floor⟩ =
      (if base.nested ∧ frames.length + floor.depth = base.frames then return .exit (.returned v)
        else push pos v >>= fun _ => return .jump f.returnIp)
        ⟨m, Context.on ⟨keepOldest f.savedSp above, frames,
          dropHandlers (base.handlers - floor.handlerCount) r.depth r.handlers⟩ floor⟩ := by
  have hstack' : (r.on floor).stack = v :: (above ++ floor.stack) := by simp [Context.on, hstack]
  have hframes' : (r.on floor).frames =
      f.lift floor.sp :: (frames.map (Frame.lift floor.sp) ++ floor.frames) := by
    simp [Context.on, hframes]
  have hsaved' : (f.lift floor.sp).savedSp ≤ (above ++ floor.stack).length := by
    simpa [Frame.lift, Context.sp] using hsaved
  have hlength : (frames.map (Frame.lift floor.sp) ++ floor.frames).length =
      frames.length + floor.depth := by simp [Context.depth]
  have hhandlers : dropHandlers base.handlers (r.on floor).depth (r.on floor).handlers =
      (dropHandlers (base.handlers - floor.handlerCount) r.depth r.handlers).map
        (Handler.lift floor) ++ floor.handlers := by
    rw [Context.depth_on]
    exact dropHandlers_on r.handlers hfloor
  have hkeep : keepOldest (f.lift floor.sp).savedSp (above ++ floor.stack) =
      keepOldest f.savedSp above ++ floor.stack := keepOldest_add_append _ _ _
  rw [ret_apply hstack' hframes' hsaved' (hlength ▸ hown), hlength, hhandlers, hkeep]
  rfl

theorem ret_follows (hbase : σ.Bases base base')
    (hok : ret base pos (σ.here m r) = .ok step s)
    (hstay : base.frames < σ.low.depth → σ.low.depth ≤ s.context.depth) :
    ∃ m' r', s = σ.here m' r' ∧ (ret base' pos (σ.there m r) = .ok step (σ.there m' r') ∨
      step.Goes ∧ σ.Overflows r' ∧ ∃ e t, ret base' pos (σ.there m r) = .error e t) := by
  obtain ⟨v, below, f, frames, hstack, hframes, hsaved, hown, hcase⟩ := ret_eq_ok hok
  have hleft : s.context.depth = frames.length := by
    rcases hcase with ⟨-, -, -, heq⟩ | ⟨-, -, heq⟩ <;> rw [heq] <;> rfl
  have hdeep : σ.low.depth ≤ frames.length := by
    cases hbase with
    | above hle => omega
    | below _ hlow => exact hleft ▸ hstay hlow.frames
  obtain ⟨g, gs, hr⟩ : ∃ g gs, r.frames = g :: gs := by
    cases hr : r.frames with
    | cons g gs => exact ⟨g, gs, rfl⟩
    | nil =>
      have hlength := congrArg List.length hframes
      simp only [Shift.here, Context.on, hr, List.map_nil, List.nil_append, List.length_cons]
        at hlength
      rw [Context.depth] at hdeep
      omega
  simp only [Shift.here, Context.on, hr, List.map_cons, List.cons_append, List.cons.injEq]
    at hframes hstack
  obtain ⟨rfl, rfl⟩ := hframes
  obtain ⟨above, hr_stack, rfl⟩ : ∃ above, r.stack = v :: above ∧
      below = above ++ σ.low.stack := by
    cases hr_stack : r.stack with
    | cons w above =>
      rw [hr_stack, List.cons_append, List.cons.injEq] at hstack
      exact ⟨above, hstack.1 ▸ rfl, hstack.2.symm⟩
    | nil =>
      have hlength := congrArg List.length hstack
      simp only [hr_stack, List.nil_append, List.length_cons] at hlength
      simp only [Frame.lift, Context.sp] at hsaved
      omega
  have hsaved' : g.savedSp ≤ above.length := by
    simpa [Frame.lift, Context.sp] using hsaved
  have hlength : (gs.map (Frame.lift σ.low.sp) ++ σ.low.frames).length =
      gs.length + σ.low.depth := by simp [Context.depth]
  rw [hlength] at hown
  obtain ⟨hlow, hhigh⟩ := dropHandlers_bases hbase r.depth
  obtain ⟨hown', howned, hexit⟩ : base'.frames ≤ gs.length + σ.high.depth ∧
      base'.handlers - σ.high.handlerCount = base.handlers - σ.low.handlerCount ∧
      ((base'.nested = true ∧ gs.length + σ.high.depth = base'.frames) ↔
        (base.nested = true ∧ gs.length + σ.low.depth = base.frames)) := by
    cases hbase with
    | above =>
      rw [σ.depth, σ.handlerCount]
      exact ⟨hown, rfl, Iff.rfl⟩
    | below _ hlow hhigh =>
      obtain ⟨hframes, hhandlers, -⟩ := hlow
      obtain ⟨hframes', hhandlers', -⟩ := hhigh
      exact ⟨by omega, by omega, by omega⟩
  rw [Shift.here, ret_on hr_stack hr hsaved' hown hlow] at hok
  rw [Shift.there, ret_on hr_stack hr hsaved' hown' hhigh, howned]
  by_cases hleave : base.nested = true ∧ gs.length + σ.low.depth = base.frames
  · rw [if_pos hleave] at hok
    rw [if_pos (hexit.mpr hleave)]
    cases hok
    exact ⟨m, _, rfl, .inl rfl⟩
  · rw [if_neg hleave] at hok
    rw [if_neg fun h => hleave (hexit.mp h)]
    exact push_follows v (.jump g.returnIp) trivial m _ step s (.zero σ _) hok

theorem halt_follows (hbase : σ.Bases base base') (hr : σ.Within 1 r)
    (hok : halt base pos (σ.here m r) = .ok step s)
    (hstay : base.frames < σ.low.depth → ∀ e, step ≠ .exit e) :
    ∃ m' r', s = σ.here m' r' ∧ halt base' pos (σ.there m r) = .ok step (σ.there m' r') := by
  simp only [halt] at hok ⊢
  by_cases hnested : base.nested = true
  · rw [if_pos hnested] at hok
    cases hok
  rw [if_neg hnested] at hok
  cases hlow : (r.on σ.low).stack with
  | nil =>
    simp only [bind_apply, context, Shift.here, hlow] at hok
    cases hok
  | cons v below =>
    have hsp : 1 ≤ r.sp := hr.le_sp (by rw [← Context.sp_on, Context.sp, hlow]; simp)
    obtain ⟨w, above, hstack⟩ := List.exists_cons_of_length_pos hsp
    have hstep : step = .exit (.halted v) := by
      simp only [bind_apply, context, Shift.here, hlow] at hok
      cases hok
      rfl
    cases hbase with
    | below _ hlow => exact absurd hstep (hstay hlow.frames _)
    | above =>
      rw [if_neg hnested]
      simp only [bind_apply, context, discard, Shift.here, Context.on, hstack, List.cons_append]
        at hok
      cases hok
      refine ⟨m, { r with stack := above }, rfl, ?_⟩
      simp only [bind_apply, context, discard, Shift.there, Context.on, hstack, List.cons_append]
      rfl

/-- An instruction that looks at no value of the floor and stays above it does the same in both
runs. -/
theorem instr_twin {i : Instr} (hbase : σ.Bases base base') (hr : σ.Within i.reach r)
    (hok : instr base pos next i (σ.here m r) = .ok step s)
    (hstay : base.frames < σ.low.depth →
      (step.Goes → σ.low.depth ≤ s.context.depth) ∧ ∀ e, step ≠ .exit e) :
    ∃ m' r', s = σ.here m' r' ∧
      (instr base' pos next i (σ.there m r) = .ok step (σ.there m' r') ∨
        step.Goes ∧ σ.Overflows r' ∧ ∃ e t, instr base' pos next i (σ.there m r) = .error e t) := by
  obtain ⟨op, x⟩ := i
  by_cases hhalt : op = .halt
  · subst hhalt
    obtain ⟨m', r', hs, hthere⟩ := halt_follows hbase hr hok fun hlt => (hstay hlt).2
    exact ⟨m', r', hs, .inl hthere⟩
  by_cases htry : op = .tryEnd
  · subst htry
    obtain ⟨r', hs, hthere⟩ := tryEnd_follows hbase hok
    exact ⟨m, r', hs, .inl hthere⟩
  by_cases hret : op = .ret
  · subst hret
    refine ret_follows hbase hok fun hlt => (hstay hlt).1 ?_
    obtain ⟨_, _, _, _, -, -, -, -, ⟨-, -, hexit, -⟩ | ⟨-, hjump, -⟩⟩ := ret_eq_ok hok
    · exact absurd hexit ((hstay hlt).2 _)
    · rw [hjump]
      trivial
  · exact instr_follows hhalt hret htry m r step s hr hok

theorem enter_follows (count : Nat) (c : ClosureRef) :
    Follows σ (count + 1) (Config.enter pos next count c) (Config.enter pos next count c) := by
  refine .store fun st => .after requireFrame_mirrors fun _ => ?_
  refine .bind (i := 0) (popN_mirrors _) (fun values => .context fun r => ?_) (by omega)
  simp only [Context.sp_on]
  exact .after (pushFrame_mirrors _ _ _ r.sp) fun _ => return_follows (.jump _)

theorem finishCall_follows (count : Nat) (callee : Function) (d : Dispatch) :
    Follows σ (count + 1) (Config.finishCall pos next count callee d)
      (Config.finishCall pos next count callee d) := by
  cases d with
  | enter c => exact enter_follows count c
  | settled result =>
    cases result with
    | ok v => exact .bind (discard_mirrors _) (fun _ => pushNext_follows v) (by omega)
    | exception v => exact .bind (discard_mirrors _) (fun _ => return_follows (.raise v)) (by omega)
    | failed why =>
      refine .bind (i := 0) (discard_mirrors _) (fun _ => ?_) (by omega)
      exact .after (create_mirrors _) fun e => return_follows (.raise e)

end Exec

end StackVM
