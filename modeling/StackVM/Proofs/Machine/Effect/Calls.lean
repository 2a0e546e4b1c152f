import StackVM.Proofs.Machine.Effect.Handlers

/-! # Effects of instructions and of calls

Every instruction has one of the effects, and so does the end of a call: it enters a closure, or
takes the callee and the arguments and goes on, raises or fails.
-/
namespace StackVM

namespace Config
variable {host : Host} {base : Base} {s s' : State} {pos next count : Nat} {p : List Pending}

theorem step_run {ip : Nat} {i : Instr} (h : s.machine.program.decodeAt ip = .ok (i, next)) :
    step host ⟨.run base ip, p, s⟩ =
      some (proceed base ip next p (Exec.instr base ip next i s)) := by
  simp only [step, fetch, h]

theorem proceed_caught {h : Handler} (hown : Exec.ownHandler? base s.context = some h)
    (hroom : s.context.sp < Capacity.stack) (v : Value) :
    proceed base pos next p (.ok (.raise v) s) = ⟨.run base h.catchIp, p,
      { s with
        context := ⟨v :: keepOldest h.sp s.context.stack, keepOldest h.frames s.context.frames,
          s.context.handlers.tail⟩ }⟩ := by
  simp only [proceed, Exec.unwind_caught hown hroom]

theorem proceed_uncaught (hown : Exec.ownHandler? base s.context = none) (v : Value) :
    proceed base pos next p (.ok (.raise v) s) =
      ⟨.exited (.ok (.raised v)), p, { s with context := s.context.abandon base }⟩ := by
  simp only [proceed, Exec.unwind_uncaught hown]

theorem raise_effect {op : Opcode} {n : Nat} {c : Context} (hop : op.CanRaise)
    (htrade : c.Traded n s.context) (hroom : s.context.sp < Capacity.stack) (v : Value) :
    ∃ control t, proceed base pos next p (.ok (.raise v) s) = ⟨control, p, t⟩ ∧
      Effect base op n c control t.context := by
  cases hown : Exec.ownHandler? base s.context with
  | some h =>
    obtain ⟨hs, hhandlers, hle⟩ := Exec.ownHandler?_eq_some_iff.mp hown
    refine ⟨_, _, proceed_caught hown hroom v, ?_⟩
    dsimp only
    rw [hhandlers, List.tail_cons]
    exact .caught hop htrade hroom hhandlers hle
  | none =>
    exact ⟨_, _, proceed_uncaught hown v,
      .escape hop htrade (Exec.ownHandler?_eq_none_iff.mp hown)⟩

theorem instr_effect (hroom : s.context.sp ≤ Capacity.stack) {i : Instr} {step : Step}
    (h : Exec.instr base pos next i s = .ok step s') (hstep : ∀ f args, step ≠ .invoke f args) :
    ∃ control t, proceed base pos next p (.ok step s') = ⟨control, p, t⟩ ∧
      Effect base i.opcode i.operands s.context control t.context := by
  have hsettled := (Exec.instr_atomic hroom base pos next i).ok h
  by_cases hraise : ∃ v, step = .raise v
  · obtain ⟨v, rfl⟩ := hraise
    obtain ⟨hop, htrade⟩ := Exec.raise_trades h
    exact raise_effect hop htrade hsettled v
  cases hm : Exec.manages i.opcode with
  | false =>
    obtain ⟨htrade, hplain⟩ := Exec.instr_trades hm _ _ h
    cases step with
    | next => exact ⟨_, _, rfl, .trade htrade⟩
    | jump target => exact ⟨_, _, rfl, .trade htrade⟩
    | raise v => exact absurd ⟨v, rfl⟩ hraise
    | exit e => exact hplain.elim
    | invoke f args => exact hplain.elim
  | true =>
    obtain ⟨op, x⟩ := i
    cases op with
    | halt =>
      obtain ⟨htrade, hnested, v, rfl⟩ := Exec.halt_trades _ _ h
      exact ⟨_, _, rfl, .halt hnested htrade⟩
    | call =>
      rcases Exec.call_trades h with ⟨f, args, rfl, -⟩ | ⟨v, rfl, -⟩
      · exact absurd rfl (hstep f args)
      · exact absurd ⟨v, rfl⟩ hraise
    | ret =>
      obtain ⟨v, below, f, frames, hstack, hframes, hsaved, hbase, hcase⟩ := Exec.ret_eq_ok h
      rcases hcase with ⟨hnested, hdepth, rfl, hcontext⟩ | ⟨hgoes, rfl, hcontext⟩
      · refine ⟨_, _, rfl, ?_⟩
        rw [hcontext]
        exact .leave hstack hframes hnested hdepth
      · refine ⟨_, _, rfl, ?_⟩
        rw [hcontext]
        exact .ret hstack hframes hsaved hbase hgoes
    | tryStart =>
      obtain ⟨rfl, e, -, hframes, hsp, hfew, rfl⟩ := Exec.tryStart_eq_ok h
      exact ⟨_, _, rfl, .install hframes hsp hfew⟩
    | tryEnd =>
      obtain ⟨rfl, e, hs, hhandlers, hle, hframes, rfl⟩ := Exec.tryEnd_eq_ok h
      exact ⟨_, _, rfl, .uninstall hhandlers hle hframes⟩
    | _ => cases hm

theorem taken_run {ip : Nat} {i : Instr} {step : Step}
    (hdecode : s.machine.program.decodeAt ip = .ok (i, next))
    (h : Exec.instr base ip next i s = .ok step s') (hstep : ∀ f args, step ≠ .invoke f args) :
    taken ⟨.run base ip, p, s⟩ = i.operands := by
  unfold taken
  dsimp only
  rw [hdecode]
  dsimp only
  rw [h]
  cases step with
  | invoke f args => exact absurd rfl (hstep f args)
  | _ => rfl

theorem fetch_moves (hroom : s.context.sp ≤ Capacity.stack) (base : Base) (ip : Nat)
    (p : List Pending) : Moves ⟨.run base ip, p, s⟩ (fetch base ip p s) := by
  unfold fetch
  cases hdecode : s.machine.program.decodeAt ip with
  | error e => exact .stuck
  | ok decoded =>
    obtain ⟨i, next⟩ := decoded
    dsimp only
    cases hres : Exec.instr base ip next i s with
    | error f s' =>
      cases (Exec.instr_atomic hroom base ip next i).error hres
      exact .stuck
    | ok step s' =>
      by_cases hinvoke : ∃ f args, step = .invoke f args
      · obtain ⟨f, args, rfl⟩ := hinvoke
        obtain ⟨rfl, -⟩ := (Exec.instr_atomic hroom base ip next i).ok hres
        exact .invoke
      · have hstep : ∀ f args, step ≠ .invoke f args := fun f args h => hinvoke ⟨f, args, h⟩
        obtain ⟨control, t, hproceed, heffect⟩ := instr_effect (p := p) hroom hres hstep
        rw [hproceed]
        refine .fetch hdecode ?_
        rw [taken_run hdecode hres hstep]
        exact heffect

theorem enter_eq_ok {r : ClosureRef} {step : Step} (h : enter pos next count r s = .ok step s') :
    step = .jump (s.machine.store.closure r).entry ∧ count < s.context.sp ∧
      s.context.depth < Capacity.frames ∧
      ∃ f : Frame, f.returnIp = next ∧ f.savedSp = s.context.sp - (count + 1) ∧
        s'.context = ⟨s.context.stack.drop (count + 1), f :: s.context.frames,
          s.context.handlers⟩ := by
  simp only [enter, Exec.bind_apply, Exec.store, Exec.requireFrame] at h
  by_cases hdepth : s.context.depth < Capacity.frames
  · rw [if_pos hdepth] at h
    dsimp only at h
    by_cases hcount : count + 1 ≤ s.context.sp
    · rw [Exec.popN_apply hcount] at h
      simp only [Exec.bind_apply, Exec.context, Exec.pushFrame, Exec.requireFrame] at h
      rw [if_pos (by exact hdepth)] at h
      cases h
      refine ⟨rfl, hcount, hdepth, _, rfl, ?_, rfl⟩
      simp [Context.sp]
    · have hpop : Exec.popN pos (count + 1) s = .error ⟨pos, .stackUnderflow⟩ s := by
        simp only [Exec.popN, Exec.top, Exec.bind_apply, if_pos (Nat.lt_of_not_le hcount)]
      rw [hpop] at h
      cases h
  · rw [if_neg hdepth] at h
    cases h

theorem enter_eq_error {r : ClosureRef} {f : Fault} (h : enter pos next count r s = .error f s') :
    s' = s := by
  by_cases hcount : count < s.context.sp
  · exact (enter_atomic hcount r s).error h
  · have hpop : Exec.popN pos (count + 1) s = .error ⟨pos, .stackUnderflow⟩ s := by
      simp only [Exec.popN, Exec.top, Exec.bind_apply]
      rw [if_pos (by omega)]
    simp only [enter, Exec.bind_apply, Exec.store, Exec.requireFrame] at h
    by_cases hdepth : s.context.depth < Capacity.frames
    · rw [if_pos hdepth] at h
      dsimp only at h
      rw [hpop] at h
      cases h
      rfl
    · rw [if_neg hdepth] at h
      cases h
      rfl

theorem traded_drop_min (c : Context) (n : Nat) :
    c.Traded (min n c.sp) { c with stack := c.stack.drop n } := by
  have hdrop : c.stack.drop n = c.stack.drop (min n c.sp) := by
    rcases Nat.le_total n c.sp with hle | hle
    · rw [Nat.min_eq_left hle]
    · rw [Nat.min_eq_right hle, List.drop_eq_nil_of_le hle, Context.sp, List.drop_length]
  rw [hdrop]
  exact .drop (Nat.min_le_right _ _)

theorem sp_drop_lt {c : Context} (hroom : c.sp ≤ Capacity.stack) (n : Nat) :
    ({ c with stack := c.stack.drop (n + 1) } : Context).sp < Capacity.stack := by
  have hpos : 0 < Capacity.stack := by decide
  simp only [Context.sp, List.length_drop] at *
  omega

theorem taken_finish (callee : Function) (result : Dispatch) {step : Step}
    (h : finishCall pos next count callee result s = .ok step s') :
    taken ⟨.dispatched (.ok result), .call base pos next count callee :: p, s⟩ =
      min (count + 1) s.context.sp := by
  unfold taken
  dsimp only
  rw [h]

theorem finishCall_effect (hroom : s.context.sp ≤ Capacity.stack) (base : Base)
    (pos next count : Nat) (callee : Function) (p : List Pending) (d : Dispatch) :
    ∃ control t, proceed base pos next p (finishCall pos next count callee d s) =
        ⟨control, p, t⟩ ∧
      Effect base .call
        (taken ⟨.dispatched (.ok d), .call base pos next count callee :: p, s⟩) s.context control
        t.context := by
  have hdrop := traded_drop_min s.context (count + 1)
  have hlt := sp_drop_lt hroom count
  cases d with
  | enter r =>
    cases hres : enter pos next count r s with
    | ok step s' =>
      rw [taken_finish callee (.enter r) hres]
      obtain ⟨rfl, hcount, hfew, f, -, hsaved, hcontext⟩ := enter_eq_ok hres
      have hmin : min (count + 1) s.context.sp = count + 1 := Nat.min_eq_left hcount
      refine ⟨_, _, by rw [finishCall, hres]; rfl, ?_⟩
      rw [hmin, hcontext]
      exact .enter hcount hsaved hfew
    | error f s' =>
      have htaken : taken ⟨.dispatched (.ok (.enter r)), .call base pos next count callee :: p, s⟩ =
          0 := by
        unfold taken
        dsimp only
        rw [finishCall, hres]
      refine ⟨_, _, by rw [finishCall, hres]; rfl, ?_⟩
      rw [htaken, enter_eq_error hres]
      exact .fault
  | settled result =>
    cases result with
    | ok v =>
      have hres : finishCall pos next count callee (.settled (.ok v)) s = .ok .next
          { s with context := { s.context with
              stack := v :: s.context.stack.drop (count + 1) } } := by
        simp only [finishCall, Exec.bind_apply, Exec.discard, Exec.push]
        rw [if_pos hlt]
        rfl
      rw [taken_finish callee _ hres, hres]
      refine ⟨_, _, rfl, .trade (hdrop.trans ?_)⟩
      exact ⟨Nat.zero_le _, ⟨[v], rfl⟩, rfl, rfl, fun _ => hlt⟩
    | exception v =>
      rw [taken_finish callee (.settled (.exception v)) rfl]
      exact raise_effect (.inr rfl) hdrop hlt v
    | failed why =>
      rw [taken_finish callee (.settled (.failed why)) rfl]
      exact raise_effect (.inr rfl) hdrop hlt _

end Config
end StackVM
