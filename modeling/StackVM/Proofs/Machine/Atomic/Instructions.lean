import StackVM.Proofs.Machine.Atomic.Rules

/-! # Instructions that fault change nothing

An instruction first looks at the state, then changes it. Nothing can go wrong once it has begun to
change the state: a value that has been taken off the stack makes room for the one that is pushed.
-/
namespace StackVM
namespace Exec
variable {α β : Type} {s s' : State} {x : Exec α} {f : α → Exec β} {pos next : Nat} {base : Base}

theorem pushNext_succeeds (h : s.context.sp < Capacity.stack) (v : Value) {s₀ : State} :
    Succeeds s (Step.Settled s₀) (pushNext pos v) := .bind (if_pos h) (.pure trivial)

theorem pushNext_atomic (v : Value) : Atomic s (Step.Settled s) (pushNext pos v) := by
  by_cases h : s.context.sp < Capacity.stack
  · exact .of_succeeds (pushNext_succeeds h v)
  · have hpush : push pos v s = .error ⟨pos, .stackOverflow⟩ s := if_neg h
    unfold Atomic pushNext
    rw [bind_apply, hpush]

theorem pushNew_succeeds (h : s.context.sp < Capacity.stack) (make : Store → Value × Store)
    {s₀ : State} :
    Succeeds s (Step.Settled s₀) (pushNew pos make >>= fun _ => pure .next) :=
  .bind (if_pos h) (.pure trivial)

theorem pushNew_atomic (make : Store → Value × Store) :
    Atomic s (Step.Settled s) (pushNew pos make >>= fun _ => pure .next) := by
  by_cases h : s.context.sp < Capacity.stack
  · exact .of_succeeds (pushNew_succeeds h make)
  · have hpush : pushNew pos make s = .error ⟨pos, .stackOverflow⟩ s := if_neg h
    unfold Atomic
    rw [bind_apply, hpush]

theorem dup_atomic : Atomic s (Step.Settled s) (dup pos) :=
  .read reads_peek fun v _ => pushNext_atomic v

theorem drop_atomic : Atomic s (Step.Settled s) (drop pos) := .pop fun _ _ _ => .pure trivial

theorem throw_atomic (hroom : s.context.sp ≤ Capacity.stack) :
    Atomic s (Step.Settled s) (throw pos) := by
  refine .pop fun v s' hs' => .pure ?_
  change s'.context.sp < Capacity.stack
  omega

theorem call_atomic (hroom : s.context.sp ≤ Capacity.stack) (count : Nat) :
    Atomic s (Step.Settled s) (call pos count) := by
  refine .read (reads_require (count + 1)) fun _ hrequire => .read reads_peek fun v _ => ?_
  have hargs : count + 1 ≤ s.context.sp := by
    unfold require at hrequire
    by_contra hlt
    rw [if_pos (by omega)] at hrequire
    cases hrequire
  split
  next f =>
    refine .read (reads_top (count + 1)) fun values _ => .pure ⟨rfl, ?_⟩
    rw [List.length_take]
    omega
  next found =>
    refine .of_succeeds (.quiet (quiet_create _) fun exception s' hs' => ?_)
    rw [← hs'] at hroom hargs
    exact .discard (by omega) (by omega) hroom fun t ht => .pure ht

theorem halt_atomic : Atomic s (Step.Settled s) (halt base pos) := by
  refine .ite (fun _ => .fault) fun _ => .read reads_context fun c _ => ?_
  split
  · exact .of_succeeds (.bind rfl (.pure trivial))
  · exact .fault

theorem globalUndefined_atomic {post : α → State → Prop} (index : Nat) :
    Atomic s post (globalUndefined pos index) := .read reads_machine fun _ _ => .fault

theorem popFunction_atomic (hroom : s.context.sp ≤ Capacity.stack) {define : Function → Exec Unit}
    (hdefine : ∀ g, Quiet (define g)) : Atomic s (Step.Settled s) (popFunction pos define) := by
  refine .pop fun v s' hs' => ?_
  split
  · exact .quiet (hdefine _) fun _ _ _ => .pure trivial
  · refine .quiet (quiet_create _) fun exception t ht => .pure ?_
    change t.context.sp < Capacity.stack
    rw [ht]
    omega

theorem fetchGlobal_atomic (index : Nat) : Atomic s (Step.Settled s) (fetchGlobal pos index) := by
  refine .read reads_machine fun m _ => ?_
  split
  · exact .ite (fun _ => globalUndefined_atomic index) fun _ => pushNext_atomic _
  · exact globalUndefined_atomic index

theorem storeGlobal_atomic (index : Nat) : Atomic s (Step.Settled s) (storeGlobal pos index) := by
  refine .read reads_machine fun m _ => .ite (fun _ => ?_) fun _ => globalUndefined_atomic index
  exact .pop fun v _ _ => .quiet (quiet_setGlobal index v) fun _ _ _ => .pure trivial

theorem globalDefined_atomic (index : Nat) :
    Atomic s (Step.Settled s) (globalDefined pos index) :=
  .read reads_machine fun _ _ => pushNext_atomic _

theorem defGlobalFun_atomic (hroom : s.context.sp ≤ Capacity.stack) (index : Nat) :
    Atomic s (Step.Settled s) (defGlobalFun pos index) := by
  refine .read reads_machine fun m _ => ?_
  split
  · exact globalUndefined_atomic index
  · refine popFunction_atomic hroom fun g => quiet_machine.bind fun _ => ?_
    exact (quiet_create _).bind fun merged => quiet_setGlobal index merged

theorem storeSlot_atomic (r : LocalsRef) (slot : UInt8) :
    Atomic s (Step.Settled s) (storeSlot pos r slot) :=
  .pop fun v _ _ => .quiet (quiet_setSlot r slot v) fun _ _ _ => .pure trivial

theorem defSlotFun_atomic (hroom : s.context.sp ≤ Capacity.stack) (r : LocalsRef) (slot : UInt8)
    (name : String) : Atomic s (Step.Settled s) (defSlotFun pos r slot name) := by
  refine popFunction_atomic hroom fun g => (quiet_slot? r slot).bind fun _ => ?_
  exact (quiet_create _).bind fun merged => quiet_setSlot r slot merged

theorem fetchLocal_atomic (slot : UInt8) : Atomic s (Step.Settled s) (fetchLocal pos slot) :=
  .read (reads_localSlot slot) fun _ _ => .ite (fun _ => .fault) fun _ => pushNext_atomic _

theorem storeLocal_atomic (slot : UInt8) : Atomic s (Step.Settled s) (storeLocal pos slot) :=
  .read (reads_localSlot slot) fun found _ => storeSlot_atomic found.1 slot

theorem localDefined_atomic (slot : UInt8) : Atomic s (Step.Settled s) (localDefined pos slot) :=
  .read (reads_localSlot slot) fun _ _ => pushNext_atomic _

theorem defLocalFun_atomic (hroom : s.context.sp ≤ Capacity.stack) (slot : UInt8) :
    Atomic s (Step.Settled s) (defLocalFun pos slot) :=
  .read (reads_localSlot slot) fun found _ => defSlotFun_atomic hroom found.1 slot _

theorem fetchUpvar_atomic (var : Upvar) : Atomic s (Step.Settled s) (fetchUpvar pos var) :=
  .read (reads_upvarSlot var) fun _ _ => .ite (fun _ => .fault) fun _ => pushNext_atomic _

theorem storeUpvar_atomic (var : Upvar) : Atomic s (Step.Settled s) (storeUpvar pos var) :=
  .read (reads_upvarSlot var) fun found _ => storeSlot_atomic found.1 var.slot

theorem upvarDefined_atomic (var : Upvar) : Atomic s (Step.Settled s) (upvarDefined pos var) :=
  .read (reads_upvarSlot var) fun _ _ => pushNext_atomic _

theorem defUpvarFun_atomic (hroom : s.context.sp ≤ Capacity.stack) (var : Upvar) :
    Atomic s (Step.Settled s) (defUpvarFun pos var) :=
  .read (reads_upvarSlot var) fun found _ => defSlotFun_atomic hroom found.1 var.slot _

theorem makeArr_atomic (hroom : s.context.sp ≤ Capacity.stack) (count : Nat) :
    Atomic s (Step.Settled s) (makeArr pos count) := by
  refine .popN hroom ?_ ?_
  · intro items s' hs'
    exact pushNew_succeeds hs' _
  · exact pushNew_atomic _

theorem makeStr_atomic (hroom : s.context.sp ≤ Capacity.stack) (count : Nat) :
    Atomic s (Step.Settled s) (makeStr pos count) := by
  refine .read (reads_top count) fun parts hparts => ?_
  split
  · exact .fault
  · refine .discard (le_sp_of_top hparts) hroom ?_ fun _ => pushNext_atomic _
    intro s' hs'
    exact pushNext_succeeds hs' _

theorem makeHash_atomic (hroom : s.context.sp ≤ Capacity.stack) (pairs : Nat) :
    Atomic s (Step.Settled s) (makeHash pos pairs) := by
  refine .popN hroom ?_ ?_
  · intro flat s' hs'
    split
    · exact pushNew_succeeds hs' _
    · refine .quiet (quiet_create _) fun exception t ht => .pure ?_
      change t.context.sp < Capacity.stack
      rw [ht]
      exact hs'
  · exact pushNew_atomic _

theorem makeClosure_atomic (hroom : s.context.sp ≤ Capacity.stack) (e : EntryPoint) :
    Atomic s (Step.Settled s) (makeClosure pos next e) := by
  refine .ite (fun _ => .fault) fun _ => .read (reads_jumpTarget e.offset) fun entry _ => ?_
  refine .read (reads_top e.params.toNat) fun declared hdeclared => ?_
  refine .read (reads_mapM reads_paramType declared) fun paramTypes _ => ?_
  refine .discard (le_sp_of_top hdeclared) hroom ?_ ?_
  · intro s' hs'
    refine .quiet quiet_context fun ctx t ht => ?_
    have htroom : t.context.sp < Capacity.stack := by
      rw [ht]
      exact hs'
    exact pushNew_succeeds htroom _
  · intro _
    exact .read reads_context fun ctx _ => pushNew_atomic _

theorem toStr_atomic (hroom : s.context.sp ≤ Capacity.stack) :
    Atomic s (Step.Settled s) (toStr pos) := by
  refine .pop fun v s' hs' => .bind rfl (pushNext_succeeds ?_ _)
  omega

theorem toBool_atomic (hroom : s.context.sp ≤ Capacity.stack) :
    Atomic s (Step.Settled s) (toBool pos) := by
  refine .pop fun v s' hs' => .bind rfl (pushNext_succeeds ?_ _)
  omega

theorem resolveGlobal_atomic (hroom : s.context.sp ≤ Capacity.stack) :
    Atomic s (Step.Settled s) (resolveGlobal pos) := by
  refine .read reads_peek fun v hpeek => ?_
  have hsp : 0 < s.context.sp := by
    unfold peek at hpeek
    split at hpeek
    next v' rest hstack => simp [Context.sp, hstack]
    next => cases hpeek
  split
  next name =>
    refine .of_succeeds (.quiet (quiet_resolveName name) fun index s' hs' => ?_)
    rw [← hs'] at hroom hsp
    exact .discard (by omega) hsp hroom fun t ht => pushNext_succeeds ht _
  next => exact .fault

theorem writeOperand_atomic (target index : UInt16) :
    Atomic s (Step.Settled s) (writeOperand pos target index) := by
  cases hpatch : patchable s.machine.program target.toNat with
  | true =>
    obtain ⟨q, hq⟩ := exists_writeWord hpatch index
    unfold Atomic
    rw [writeOperand_apply hpatch hq]
    trivial
  | false =>
    refine .read reads_machine fun m hm => ?_
    cases hm
    dsimp only
    rw [hpatch, if_neg Bool.false_ne_true]
    exact .fault

theorem patch_atomic (target : UInt16) : Atomic s (Step.Settled s) (patch pos target) := by
  refine .read reads_machine fun m _ => .ite (fun _ => ?_) fun _ => .fault
  refine .read reads_peek fun v _ => ?_
  split
  · split
    · exact writeOperand_atomic target _
    · exact .fault
  · exact .fault

theorem initDone_atomic : Atomic s (Step.Settled s) initDone :=
  .of_succeeds (.bind rfl (.pure trivial))

theorem jump_atomic (offset : Int16) : Atomic s (Step.Settled s) (jump pos next offset) :=
  .read (reads_jumpTarget offset) fun _ _ => .pure trivial

theorem branch_atomic (offset : Int16) (wanted : Bool) :
    Atomic s (Step.Settled s) (branch pos next offset wanted) := by
  refine .read (reads_jumpTarget offset) fun target _ => .pop fun v s' _ => .bind rfl ?_
  split
  · exact .pure trivial
  · exact .pure trivial

theorem tryStart_atomic (offset : Int16) :
    Atomic s (Step.Settled s) (tryStart pos next offset) := by
  refine .read (reads_jumpTarget offset) fun catchIp _ => .read reads_context fun c _ => ?_
  by_cases hroom : s.context.handlerCount < Capacity.handlers
  · exact .of_succeeds (.bind (if_pos hroom) (.pure trivial))
  · have hpush : ∀ h, pushHandler pos h s = .error ⟨pos, .handlerOverflow⟩ s :=
      fun _ => if_neg hroom
    unfold Atomic
    rw [bind_apply, hpush]

theorem tryEnd_atomic : Atomic s (Step.Settled s) (tryEnd base pos) := by
  refine .read reads_context fun c _ => .ite (fun _ => ?_) fun _ => .fault
  exact .of_succeeds (.bind rfl (.pure trivial))

theorem ret_atomic (hroom : s.context.sp ≤ Capacity.stack) :
    Atomic s (Step.Settled s) (ret base pos) := by
  refine .read reads_frame fun f _ => .read reads_context fun c hc => ?_
  cases hc
  refine .ite (fun _ => .fault) fun _ => .read reads_context fun c hc => ?_
  cases hc
  refine .ite (fun _ => .fault) fun hsaved => .pop fun v s' hs' => .bind rfl ?_
  split
  · exact .pure trivial
  · refine .bind (if_pos ?_) (.pure trivial)
    change (keepOldest f.savedSp s'.context.stack).length < Capacity.stack
    rw [keepOldest, List.length_drop]
    unfold Context.sp at *
    omega

/-- An instruction that faults leaves the state as it was. -/
theorem instr_atomic (hroom : s.context.sp ≤ Capacity.stack) (base : Base) (pos next : Nat)
    (i : Instr) : Atomic s (Step.Settled s) (instr base pos next i) := by
  obtain ⟨op, x⟩ := i
  cases op with
  | halt => exact halt_atomic
  | pushNull | pushFalse | pushTrue | pushUndef | pushInt | pushText | pushEmptyStr =>
    exact pushNext_atomic _
  | dup => exact dup_atomic
  | pop => exact drop_atomic
  | resolveGlobal => exact resolveGlobal_atomic hroom
  | patch => exact patch_atomic _
  | initDone => exact initDone_atomic
  | fetchGlobal => exact fetchGlobal_atomic _
  | storeGlobal => exact storeGlobal_atomic _
  | globalDefined => exact globalDefined_atomic _
  | defGlobalFun => exact defGlobalFun_atomic hroom _
  | fetchLocal => exact fetchLocal_atomic _
  | storeLocal => exact storeLocal_atomic _
  | localDefined => exact localDefined_atomic _
  | defLocalFun => exact defLocalFun_atomic hroom _
  | fetchUpvar => exact fetchUpvar_atomic _
  | storeUpvar => exact storeUpvar_atomic _
  | upvarDefined => exact upvarDefined_atomic _
  | defUpvarFun => exact defUpvarFun_atomic hroom _
  | call => exact call_atomic hroom _
  | ret => exact ret_atomic hroom
  | jump => exact jump_atomic _
  | jumpTrue | jumpFalse => exact branch_atomic _ _
  | makeArr => exact makeArr_atomic hroom _
  | makeStr => exact makeStr_atomic hroom _
  | makeHash => exact makeHash_atomic hroom _
  | makeClosure => exact makeClosure_atomic hroom _
  | toStr => exact toStr_atomic hroom
  | toBool => exact toBool_atomic hroom
  | tryStart => exact tryStart_atomic _
  | tryEnd => exact tryEnd_atomic
  | throw => exact throw_atomic hroom

/-- An exception always finds its handler, or ends the run: the value that was taken to raise it
left room. -/
theorem unwind_succeeds (hroom : s.context.sp < Capacity.stack) (base : Base) (pos : Nat)
    (exception : Value) : ∃ u s', unwind base pos exception s = .ok u s' := by
  simp only [unwind, bind_apply, context]
  cases ownHandler? base s.context with
  | some h =>
    dsimp only
    rw [if_pos (by omega)]
    exact ⟨_, _, rfl⟩
  | none =>
    dsimp only
    cases oldest? base.frames s.context.frames with
    | some f => exact ⟨_, _, rfl⟩
    | none => exact ⟨_, _, rfl⟩

end Exec
end StackVM
