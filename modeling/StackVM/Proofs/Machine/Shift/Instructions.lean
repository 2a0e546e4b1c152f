import StackVM.Proofs.Machine.Shift.Primitives

/-! # Instructions on shifted ground

An instruction that does not halt, catch or return does in both states the same to the upper part,
if all values that it looks at are there.
-/
namespace StackVM
namespace Exec
variable {α β : Type} {σ : Shift} {n i pos next : Nat} {x : Exec α} {f g : α → Exec β}
  {w : Exec Step}

theorem pushNext_follows (v : Value) : Follows σ 0 (pushNext pos v) (pushNext pos v) :=
  push_follows v .next trivial

theorem return_follows (step : Step) : Follows σ 0 (return step) (return step) :=
  (Mirrors.pure step).follows

theorem dup_follows : Follows σ 1 (dup pos) (dup pos) :=
  .bind peek_mirrors pushNext_follows (by omega)

theorem drop_follows : Follows σ 1 (drop pos) (drop pos) :=
  .bind pop_mirrors (fun _ => return_follows .next) (by omega)

theorem throw_follows : Follows σ 1 (throw pos) (throw pos) :=
  .bind pop_mirrors (fun v => return_follows (.raise v)) (by omega)

theorem call_follows (count : Nat) : Follows σ (count + 1) (call pos count) (call pos count) := by
  refine .bind (i := count + 1) require_mirrors (fun _ => ?_) (by omega)
  refine .bind (i := count + 1) (peek_mirrors.mono (by omega)) (fun v => ?_) (by omega)
  cases v with
  | func f =>
    exact .bind top_mirrors (fun values => return_follows (.invoke f _)) (by omega)
  | _ =>
    refine .after (create_mirrors _) fun e => ?_
    exact .bind (discard_mirrors _) (fun _ => return_follows (.raise e)) (by omega)

theorem popFunction_follows {define define' : Function → Exec Unit}
    (h : ∀ f, Mirrors σ 0 0 (define f) (define' f)) :
    Follows σ 1 (popFunction pos define) (popFunction pos define') := by
  refine .bind (i := 0) pop_mirrors (fun v => ?_) (by omega)
  cases v with
  | func f => exact .after (h f) fun _ => return_follows .next
  | _ => exact .after (create_mirrors _) fun e => return_follows (.raise e)

theorem globalUndefined_follows (index : Nat) : Follows σ n (globalUndefined pos index) w := by
  rintro m r step s - hok
  cases hok

theorem fetchGlobal_follows (index : Nat) :
    Follows σ 0 (fetchGlobal pos index) (fetchGlobal pos index) := by
  refine .machine fun m => ?_
  dsimp only [Machine.extend]
  cases m.globals.get? index with
  | none => exact globalUndefined_follows index
  | some v => exact .ite (fun _ => globalUndefined_follows index) fun _ => pushNext_follows v

theorem setGlobal_mirrors (index : Nat) (v : Value) :
    Mirrors σ 0 0 (setGlobal index v) (setGlobal index v) :=
  modifyMachine_mirrors fun _ => rfl

theorem storeGlobal_follows (index : Nat) :
    Follows σ 1 (storeGlobal pos index) (storeGlobal pos index) := by
  refine .machine fun m => .ite (fun _ => ?_) fun _ => globalUndefined_follows index
  refine .bind (i := 0) pop_mirrors (fun v => ?_) (by omega)
  exact .after (setGlobal_mirrors index v) fun _ => return_follows .next

theorem globalDefined_follows (index : Nat) :
    Follows σ 0 (globalDefined pos index) (globalDefined pos index) :=
  .machine fun _ => pushNext_follows _

theorem defGlobalFun_follows (index : Nat) :
    Follows σ 1 (defGlobalFun pos index) (defGlobalFun pos index) := by
  refine .machine fun m => ?_
  dsimp only [Machine.extend]
  cases m.globals.get? index with
  | none => exact globalUndefined_follows index
  | some current =>
    refine popFunction_follows fun f => .machine fun m => ?_
    exact (create_mirrors _).after fun merged => setGlobal_mirrors index merged

theorem slot?_mirrors (r : LocalsRef) (slot : UInt8) :
    Mirrors σ 0 0 (slot? r slot) (slot? r slot) :=
  .store fun _ => .pure _

theorem setSlot_mirrors (r : LocalsRef) (slot : UInt8) (v : Value) :
    Mirrors σ 0 0 (setSlot r slot v) (setSlot r slot v) :=
  create_mirrors _

theorem storeSlot_follows (r : LocalsRef) (slot : UInt8) :
    Follows σ 1 (storeSlot pos r slot) (storeSlot pos r slot) := by
  refine .bind (i := 0) pop_mirrors (fun v => ?_) (by omega)
  exact .after (setSlot_mirrors r slot v) fun _ => return_follows .next

theorem defSlotFun_follows (r : LocalsRef) (slot : UInt8) (name : String) :
    Follows σ 1 (defSlotFun pos r slot name) (defSlotFun pos r slot name) := by
  refine popFunction_follows fun f => ?_
  refine (slot?_mirrors r slot).after fun current => ?_
  exact (create_mirrors _).after fun merged => setSlot_mirrors r slot merged

theorem localSlot_mirrors (slot : UInt8) :
    Mirrors σ 0 0 (localSlot pos slot) (localSlot pos slot) := by
  refine .frame fun e e' hbinding => ?_
  obtain ⟨hlocals, -⟩ := Prod.mk.inj hbinding
  rw [hlocals]
  refine (slot?_mirrors e.locals slot).after fun found => ?_
  cases found with
  | none => exact .fault
  | some v => exact .pure _

theorem upvarSlot_mirrors (var : Upvar) :
    Mirrors σ 0 0 (upvarSlot pos var) (upvarSlot pos var) := by
  refine .frame fun e e' hbinding => ?_
  obtain ⟨-, hscope⟩ := Prod.mk.inj hbinding
  rw [hscope]
  cases e.scope[var.depth.toNat]? with
  | none => exact .fault
  | some r =>
    refine (slot?_mirrors r var.slot).after fun found => ?_
    cases found with
    | none => exact .fault
    | some v => exact .pure _

theorem fetchLocal_follows (slot : UInt8) :
    Follows σ 0 (fetchLocal pos slot) (fetchLocal pos slot) :=
  .after (localSlot_mirrors slot) fun _ => .ite (fun _ => .fault) fun _ => pushNext_follows _

theorem storeLocal_follows (slot : UInt8) :
    Follows σ 1 (storeLocal pos slot) (storeLocal pos slot) :=
  .after (localSlot_mirrors slot) fun found => storeSlot_follows found.1 slot

theorem localDefined_follows (slot : UInt8) :
    Follows σ 0 (localDefined pos slot) (localDefined pos slot) :=
  .after (localSlot_mirrors slot) fun _ => pushNext_follows _

theorem defLocalFun_follows (slot : UInt8) :
    Follows σ 1 (defLocalFun pos slot) (defLocalFun pos slot) :=
  .after (localSlot_mirrors slot) fun found => defSlotFun_follows found.1 slot _

theorem fetchUpvar_follows (var : Upvar) :
    Follows σ 0 (fetchUpvar pos var) (fetchUpvar pos var) :=
  .after (upvarSlot_mirrors var) fun _ => .ite (fun _ => .fault) fun _ => pushNext_follows _

theorem storeUpvar_follows (var : Upvar) :
    Follows σ 1 (storeUpvar pos var) (storeUpvar pos var) :=
  .after (upvarSlot_mirrors var) fun found => storeSlot_follows found.1 var.slot

theorem upvarDefined_follows (var : Upvar) :
    Follows σ 0 (upvarDefined pos var) (upvarDefined pos var) :=
  .after (upvarSlot_mirrors var) fun _ => pushNext_follows _

theorem defUpvarFun_follows (var : Upvar) :
    Follows σ 1 (defUpvarFun pos var) (defUpvarFun pos var) :=
  .after (upvarSlot_mirrors var) fun found => defSlotFun_follows found.1 var.slot _

theorem jumpTarget_mirrors (offset : Int16) :
    Mirrors σ 0 0 (jumpTarget pos next offset) (jumpTarget pos next offset) := by
  refine .machine fun m => ?_
  rintro m' r t s - hok
  dsimp only at hok ⊢
  cases htarget : (relativeTarget? next offset).filter (· < m.program.size) with
  | none =>
    rw [htarget] at hok
    cases hok
  | some target =>
    rw [htarget] at hok
    cases hok
    obtain ⟨hfound, hlt⟩ := Option.filter_eq_some_iff.mp htarget
    have hthere : (relativeTarget? next offset).filter (· < (m.extend σ.added).program.size) =
        some t := by
      refine Option.filter_eq_some_iff.mpr ⟨hfound, ?_⟩
      simp only [decide_eq_true_eq, Machine.extend, Program.size_append] at hlt ⊢
      omega
    rw [hthere]
    exact ⟨m', r, rfl, rfl, Nat.le_refl _⟩

theorem jump_follows (offset : Int16) :
    Follows σ 0 (jump pos next offset) (jump pos next offset) :=
  .after (jumpTarget_mirrors offset) fun target => return_follows (.jump target)

theorem branch_follows (offset : Int16) (wanted : Bool) :
    Follows σ 1 (branch pos next offset wanted) (branch pos next offset wanted) := by
  refine .after (jumpTarget_mirrors offset) fun target => ?_
  refine .bind (i := 0) pop_mirrors (fun v => .store fun st => ?_) (by omega)
  exact .ite (fun _ => return_follows (.jump target)) fun _ => return_follows .next

theorem tryStart_follows (offset : Int16) :
    Follows σ 0 (tryStart pos next offset) (tryStart pos next offset) := by
  refine .after (jumpTarget_mirrors offset) fun catchIp => .context fun r => ?_
  simp only [Context.depth_on, Context.sp_on]
  refine .after ?_ fun _ => return_follows .next
  exact pushHandler_mirrors ⟨catchIp, r.depth, r.sp⟩

theorem makeArr_follows (count : Nat) :
    Follows σ count (makeArr pos count) (makeArr pos count) :=
  .bind (popN_mirrors count) (fun items => pushNew_follows _ .next trivial) (by omega)

theorem makeStr_follows (count : Nat) :
    Follows σ count (makeStr pos count) (makeStr pos count) := by
  refine .bind (i := count) top_mirrors (fun parts => ?_) (by omega)
  cases parts.find? (·.str?.isNone) with
  | some found => exact .fault
  | none => exact .bind (discard_mirrors count) (fun _ => pushNext_follows _) (by omega)

theorem makeHash_follows (pairs : Nat) :
    Follows σ (2 * pairs) (makeHash pos pairs) (makeHash pos pairs) := by
  refine .bind (i := 0) (popN_mirrors _) (fun flat => ?_) (by omega)
  cases gatherEntries [] flat with
  | ok entries => exact pushNew_follows _ .next trivial
  | error found => exact .after (create_mirrors _) fun e => return_follows (.raise e)

theorem toStr_follows : Follows σ 1 (toStr pos) (toStr pos) :=
  .bind pop_mirrors (fun _ => .store fun _ => pushNext_follows _) (by omega)

theorem toBool_follows : Follows σ 1 (toBool pos) (toBool pos) :=
  .bind pop_mirrors (fun _ => .store fun _ => pushNext_follows _) (by omega)

theorem resolveGlobal_follows : Follows σ 1 (resolveGlobal pos) (resolveGlobal pos) := by
  refine .bind (i := 1) peek_mirrors (fun v => ?_) (by omega)
  cases v with
  | str name =>
    refine .after (resolveName_mirrors name) fun index => ?_
    exact .bind (discard_mirrors 1) (fun _ => pushNext_follows _) (by omega)
  | _ => exact .fault

theorem initDone_follows : Follows σ 0 initDone initDone := by
  refine .after (modifyMachine_mirrors fun m => ?_) fun _ => return_follows .next
  dsimp only [Machine.extend]
  split <;> rfl

theorem writeOperand_follows (target index : UInt16) :
    Follows σ 1 (writeOperand pos target index) (writeOperand pos target index) := by
  intro m r step s hr hok
  cases hpatch : patchable m.program target.toNat with
  | false =>
    simp only [writeOperand, bind_apply, machine, Shift.here, hpatch, Bool.false_eq_true,
      if_false] at hok
    cases hok
  | true =>
    obtain ⟨q, hq⟩ := exists_writeWord hpatch index
    rw [writeOperand_apply hpatch hq] at hok
    cases hok
    refine ⟨{ m with program := q }, { r with stack := r.stack.drop 1 }, ?_, .inl ?_⟩
    · simp only [Shift.here, hr.drop.1]
      rfl
    · have hpatch' : patchable (σ.there m r).machine.program target.toNat = true :=
        patchable_append hpatch σ.added
      have hq' : (σ.there m r).machine.program.writeWord target.toNat index =
          .ok (q.append σ.added) := Program.writeWord_append hq σ.added
      rw [writeOperand_apply hpatch' hq']
      simp only [Shift.there, hr.drop.2]
      rfl

theorem patch_follows (target : UInt16) : Follows σ 1 (patch pos target) (patch pos target) := by
  refine .machine fun m => .ite (fun _ => ?_) fun _ => .fault
  refine .bind (i := 1) peek_mirrors (fun v => ?_) (by omega)
  cases v with
  | int n =>
    dsimp only
    cases indexOperand? n with
    | some index => exact writeOperand_follows target index
    | none => exact .fault
  | _ => exact .fault

theorem paramType_mirrors (v : Value) : Mirrors σ 0 0 (paramType pos v) (paramType pos v) := by
  cases v with
  | type t => exact .pure t
  | null => exact .pure Tag.any
  | _ => exact .fault

theorem mapM_mirrors {g : β → Exec α} (hg : ∀ b, Mirrors σ 0 0 (g b) (g b)) (bs : List β) :
    Mirrors σ 0 0 (bs.mapM g) (bs.mapM g) := by
  induction bs with
  | nil => exact .pure []
  | cons b bs ih =>
    rw [List.mapM_cons]
    exact (hg b).after fun a => ih.after fun as => .pure (a :: as)

theorem makeClosure_follows (e : EntryPoint) :
    Follows σ e.params.toNat (makeClosure pos next e) (makeClosure pos next e) := by
  refine .ite (fun _ => .fault) fun _ => .after (jumpTarget_mirrors e.offset) fun entry => ?_
  refine .bind (i := e.params.toNat) top_mirrors (fun declared => ?_) (by omega)
  refine .after (mapM_mirrors paramType_mirrors declared) fun paramTypes => ?_
  refine .bind (i := 0) (discard_mirrors _) (fun _ => .context fun r => ?_) (by omega)
  have hbindings := σ.bindings_on r
  cases hlow : (r.on σ.low).frames with
  | nil =>
    rw [hlow, List.map_nil, List.map_eq_nil_iff] at hbindings
    rw [hbindings]
    exact pushNew_follows _ .next trivial
  | cons f fs =>
    rw [hlow, List.map_cons, List.map_eq_cons_iff] at hbindings
    obtain ⟨f', fs', hhigh, hbinding, -⟩ := hbindings
    obtain ⟨hlocals, hscope⟩ := Prod.mk.inj hbinding
    rw [hhigh]
    dsimp only
    rw [hlocals, hscope]
    exact pushNew_follows _ .next trivial

/-- The instructions that look at the frames and the handlers of a run are left out here. -/
theorem instr_follows {base base' : Base} {i : Instr} (hhalt : i.opcode ≠ .halt)
    (hret : i.opcode ≠ .ret) (htry : i.opcode ≠ .tryEnd) :
    Follows σ i.reach (instr base pos next i) (instr base' pos next i) := by
  obtain ⟨op, x⟩ := i
  cases op with
  | halt => exact absurd rfl hhalt
  | ret => exact absurd rfl hret
  | tryEnd => exact absurd rfl htry
  | pushNull | pushFalse | pushTrue | pushUndef | pushInt | pushText | pushEmptyStr =>
    exact pushNext_follows _
  | dup => exact dup_follows
  | pop => exact drop_follows
  | resolveGlobal => exact resolveGlobal_follows
  | patch => exact patch_follows _
  | initDone => exact initDone_follows
  | fetchGlobal => exact fetchGlobal_follows _
  | storeGlobal => exact storeGlobal_follows _
  | globalDefined => exact globalDefined_follows _
  | defGlobalFun => exact defGlobalFun_follows _
  | fetchLocal => exact fetchLocal_follows _
  | storeLocal => exact storeLocal_follows _
  | localDefined => exact localDefined_follows _
  | defLocalFun => exact defLocalFun_follows _
  | fetchUpvar => exact fetchUpvar_follows _
  | storeUpvar => exact storeUpvar_follows _
  | upvarDefined => exact upvarDefined_follows _
  | defUpvarFun => exact defUpvarFun_follows _
  | call => exact call_follows _
  | jump => exact jump_follows _
  | jumpTrue | jumpFalse => exact branch_follows _ _
  | makeArr => exact makeArr_follows _
  | makeStr => exact makeStr_follows _
  | makeHash => exact makeHash_follows _
  | makeClosure => exact makeClosure_follows _
  | toStr => exact toStr_follows
  | toBool => exact toBool_follows
  | tryStart => exact tryStart_follows _
  | throw => exact throw_follows

end Exec
end StackVM
