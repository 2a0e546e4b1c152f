import StackVM.Proofs.Code.Relink
import StackVM.Proofs.Machine.Safe

/-! # Instructions that keep the skeleton

One statement for each instruction that works on the stack, the globals, the local variables or the
containers: it keeps every invariant of the skeleton. A patch writes an operand.
-/
namespace StackVM

theorem Store.closures_defineOverload (st : Store) (slot : Value) (f : Function) (name : String) :
    (st.defineOverload slot f name).2.closures = st.closures := by
  unfold Store.defineOverload
  split <;> rfl

namespace Exec
variable {J : Skeleton → Prop} {T : Nat → Prop} {pos next : Nat} {base : Base}

theorem return_next_safe : Safe J pos (Step.Lands T) (pure .next) := .pure trivial

theorem pushNext_safe (v : Value) : Safe J pos (Step.Lands T) (pushNext pos v) :=
  (push_safe v).andThen fun _ => return_next_safe

theorem dup_safe : Safe J pos (Step.Lands T) (dup pos) := peek_safe.andThen fun v => pushNext_safe v

theorem drop_safe : Safe J pos (Step.Lands T) (drop pos) :=
  pop_safe.andThen fun _ => return_next_safe

theorem throw_safe : Safe J pos (Step.Lands T) (throw pos) :=
  pop_safe.andThen fun _ => .pure trivial

theorem call_safe (count : Nat) : Safe J pos (Step.Lands T) (call pos count) := by
  refine (require_safe (count + 1)).andThen fun _ => peek_safe.andThen fun v => ?_
  split
  · exact (top_safe (count + 1)).andThen fun _ => .pure trivial
  · exact (create_safe fun _ => rfl).andThen fun _ =>
      (discard_safe (count + 1)).andThen fun _ => .pure trivial

theorem halt_safe : Safe J pos (Step.Lands T) (halt base pos) := by
  refine .ite (fun _ => fault_safe rfl) fun _ => context_safe.andThen fun c => ?_
  split
  · exact (discard_safe 1).andThen fun _ => .pure trivial
  · exact fault_safe rfl

theorem popFunction_safe {define : Function → Exec Unit}
    (h : ∀ f, Safe J pos (fun _ => True) (define f)) :
    Safe J pos (Step.Lands T) (popFunction pos define) := by
  refine pop_safe.andThen fun v => ?_
  split
  · exact (h _).andThen fun _ => return_next_safe
  · exact (create_safe fun _ => rfl).andThen fun _ => .pure trivial

theorem globalUndefined_safe {α : Type} {post : α → Prop} (index : Nat) :
    Safe J pos post (globalUndefined pos index) := machine_safe.andThen fun _ => fault_safe rfl

theorem setGlobal_safe (index : Nat) (v : Value) :
    Safe J pos (fun _ => True) (setGlobal index v) :=
  modifyMachine_safe (fun _ => rfl) (fun _ => rfl)

theorem fetchGlobal_safe (index : Nat) : Safe J pos (Step.Lands T) (fetchGlobal pos index) := by
  refine machine_safe.andThen fun m => ?_
  split
  · exact .ite (fun _ => globalUndefined_safe index) fun _ => pushNext_safe _
  · exact globalUndefined_safe index

theorem storeGlobal_safe (index : Nat) : Safe J pos (Step.Lands T) (storeGlobal pos index) := by
  refine machine_safe.andThen fun m => .ite (fun _ => ?_) fun _ => globalUndefined_safe index
  exact pop_safe.andThen fun v => (setGlobal_safe index v).andThen fun _ => return_next_safe

theorem globalDefined_safe (index : Nat) : Safe J pos (Step.Lands T) (globalDefined pos index) :=
  machine_safe.andThen fun _ => pushNext_safe _

theorem defGlobalFun_safe (index : Nat) : Safe J pos (Step.Lands T) (defGlobalFun pos index) := by
  refine machine_safe.andThen fun m => ?_
  split
  · exact globalUndefined_safe index
  · refine popFunction_safe fun f => machine_safe.andThen fun _ => ?_
    exact (create_safe fun st => st.closures_defineOverload _ f _).andThen fun v =>
      setGlobal_safe index v

theorem slot?_safe (r : LocalsRef) (slot : UInt8) : Safe J pos (fun _ => True) (slot? r slot) :=
  store_safe.andThen fun _ => .pure trivial

theorem setSlot_safe (r : LocalsRef) (slot : UInt8) (v : Value) :
    Safe J pos (fun _ => True) (setSlot r slot v) := create_safe fun _ => rfl

theorem storeSlot_safe (r : LocalsRef) (slot : UInt8) :
    Safe J pos (Step.Lands T) (storeSlot pos r slot) :=
  pop_safe.andThen fun v => (setSlot_safe r slot v).andThen fun _ => return_next_safe

theorem defSlotFun_safe (r : LocalsRef) (slot : UInt8) (name : String) :
    Safe J pos (Step.Lands T) (defSlotFun pos r slot name) := by
  refine popFunction_safe fun f => (slot?_safe r slot).andThen fun _ => ?_
  exact (create_safe fun st => st.closures_defineOverload _ f name).andThen fun v =>
    setSlot_safe r slot v

theorem localSlot_safe (slot : UInt8) : Safe J pos (fun _ => True) (localSlot pos slot) := by
  refine frame_safe.andThen fun f => (slot?_safe f.locals slot).andThen fun v => ?_
  split
  · exact .pure trivial
  · exact fault_safe rfl

theorem upvarSlot_safe (var : Upvar) : Safe J pos (fun _ => True) (upvarSlot pos var) := by
  refine frame_safe.andThen fun f => ?_
  split
  · exact fault_safe rfl
  · refine (slot?_safe _ var.slot).andThen fun v => ?_
    split
    · exact .pure trivial
    · exact fault_safe rfl

theorem fetchLocal_safe (slot : UInt8) : Safe J pos (Step.Lands T) (fetchLocal pos slot) :=
  (localSlot_safe slot).andThen fun _ =>
    .ite (fun _ => fault_safe rfl) fun _ => pushNext_safe _

theorem storeLocal_safe (slot : UInt8) : Safe J pos (Step.Lands T) (storeLocal pos slot) :=
  (localSlot_safe slot).andThen fun found => storeSlot_safe found.1 slot

theorem localDefined_safe (slot : UInt8) : Safe J pos (Step.Lands T) (localDefined pos slot) :=
  (localSlot_safe slot).andThen fun _ => pushNext_safe _

theorem defLocalFun_safe (slot : UInt8) : Safe J pos (Step.Lands T) (defLocalFun pos slot) :=
  (localSlot_safe slot).andThen fun found => defSlotFun_safe found.1 slot _

theorem fetchUpvar_safe (var : Upvar) : Safe J pos (Step.Lands T) (fetchUpvar pos var) :=
  (upvarSlot_safe var).andThen fun _ =>
    .ite (fun _ => fault_safe rfl) fun _ => pushNext_safe _

theorem storeUpvar_safe (var : Upvar) : Safe J pos (Step.Lands T) (storeUpvar pos var) :=
  (upvarSlot_safe var).andThen fun found => storeSlot_safe found.1 var.slot

theorem upvarDefined_safe (var : Upvar) : Safe J pos (Step.Lands T) (upvarDefined pos var) :=
  (upvarSlot_safe var).andThen fun _ => pushNext_safe _

theorem defUpvarFun_safe (var : Upvar) : Safe J pos (Step.Lands T) (defUpvarFun pos var) :=
  (upvarSlot_safe var).andThen fun found => defSlotFun_safe found.1 var.slot _

theorem makeArr_safe (count : Nat) : Safe J pos (Step.Lands T) (makeArr pos count) :=
  (popN_safe count).andThen fun _ =>
    (pushNew_safe fun _ => rfl).andThen fun _ => return_next_safe

theorem makeStr_safe (count : Nat) : Safe J pos (Step.Lands T) (makeStr pos count) := by
  refine (top_safe count).andThen fun parts => ?_
  split
  · exact fault_safe rfl
  · exact (discard_safe count).andThen fun _ => pushNext_safe _

theorem makeHash_safe (pairs : Nat) : Safe J pos (Step.Lands T) (makeHash pos pairs) := by
  refine (popN_safe (2 * pairs)).andThen fun flat => ?_
  split
  · exact (pushNew_safe fun _ => rfl).andThen fun _ => return_next_safe
  · exact (create_safe fun _ => rfl).andThen fun _ => .pure trivial

theorem toStr_safe : Safe J pos (Step.Lands T) (toStr pos) :=
  pop_safe.andThen fun _ => store_safe.andThen fun _ => pushNext_safe _

theorem toBool_safe : Safe J pos (Step.Lands T) (toBool pos) :=
  pop_safe.andThen fun _ => store_safe.andThen fun _ => pushNext_safe _

theorem paramType_safe (v : Value) : Safe J pos (fun _ => True) (paramType pos v) := by
  unfold paramType
  split
  · exact .pure trivial
  · exact .pure trivial
  · exact fault_safe rfl

theorem resolveName_safe (name : String) : Safe J pos (fun _ => True) (resolveName name) :=
  fun _ hs => ⟨hs, trivial⟩

theorem resolveGlobal_safe : Safe J pos (Step.Lands T) (resolveGlobal pos) := by
  refine peek_safe.andThen fun v => ?_
  split
  · exact (resolveName_safe _).andThen fun _ =>
      (discard_safe 1).andThen fun _ => pushNext_safe _
  · exact fault_safe rfl

theorem initDone_safe : Safe J pos (Step.Lands T) initDone := by
  refine Safe.andThen (modifyMachine_safe ?_ ?_) fun _ => return_next_safe
  · intro m
    split <;> rfl
  · intro m
    split <;> rfl

theorem patchable_iff {p : Program} {address : Nat} :
    patchable p address = true ↔ ∃ (site : Nat) (op : Opcode), address = site + 1 ∧
      p.byte? site = some op.toByte ∧ op.takesGlobal = true ∧ address + 2 ≤ p.size := by
  cases address with
  | zero => simp [patchable]
  | succ site =>
    simp only [patchable, Bool.and_eq_true, Program.readWord?_isSome_iff]
    constructor
    · rintro ⟨hany, hend⟩
      cases hbyte : p.byte? site with
      | none =>
        rw [hbyte] at hany
        cases hany
      | some byte =>
        rw [hbyte, Option.bind_some] at hany
        cases hop : Opcode.ofByte? byte with
        | none =>
          rw [hop] at hany
          cases hany
        | some op =>
          rw [hop] at hany
          rw [← Opcode.toByte_of_ofByte? hop] at hbyte
          exact ⟨site, op, rfl, hbyte, hany, hend⟩
    · rintro ⟨_, op, heq, hbyte, hg, hend⟩
      cases heq
      rw [hbyte, Option.bind_some, Opcode.ofByte?_toByte]
      exact ⟨hg, hend⟩

theorem exists_writeWord {p : Program} {address : Nat} (h : patchable p address = true)
    (index : UInt16) : ∃ q, p.writeWord address index = .ok q := by
  obtain ⟨_, _, _, _, _, hend⟩ := patchable_iff.mp h
  exact ⟨_, if_pos hend⟩

theorem writeOperand_apply {s : State} {target index : UInt16} {q : Program}
    (h : patchable s.machine.program target.toNat = true)
    (hw : s.machine.program.writeWord target.toNat index = .ok q) :
    writeOperand pos target index s = .ok .next
      { machine := { s.machine with program := q }
        context := { s.context with stack := s.context.stack.drop 1 } } := by
  simp only [writeOperand, bind_apply, machine, h, if_true, discard, hw, modifyMachine]
  rfl

theorem patch_apply {s : State} {target : UInt16}
    (h : patchable s.machine.program target.toNat = true) :
    (∃ index q s', patch pos target s = .ok .next s' ∧
      s.machine.program.writeWord target.toNat index = .ok q ∧
      s'.skeleton = { s.skeleton with program := q }) ∨
    (∃ f, patch pos target s = .error f s ∧ f.pos = pos ∧
      (f.cause.blamesCode = false ∨ f.cause = .invalidPatch target ∧
        ∃ n below, s.context.stack = .int n :: below ∧ indexOperand? n = none)) := by
  simp only [patch, bind_apply, machine]
  by_cases hphase : s.machine.phase = .linking
  · rw [if_pos hphase]
    simp only [bind_apply, peek]
    cases hst : s.context.stack with
    | nil => exact Or.inr ⟨⟨pos, .stackUnderflow⟩, rfl, rfl, Or.inl rfl⟩
    | cons v below =>
      cases v with
      | int n =>
        dsimp only
        cases hn : indexOperand? n with
        | none =>
          exact Or.inr ⟨⟨pos, .invalidPatch target⟩, rfl, rfl, Or.inr ⟨rfl, n, below, rfl, hn⟩⟩
        | some index =>
          obtain ⟨q, hw⟩ := exists_writeWord h index
          exact Or.inl ⟨index, q, _, writeOperand_apply h hw, hw, rfl⟩
      | _ => exact Or.inr ⟨⟨pos, .typeMismatch .int _⟩, rfl, rfl, Or.inl rfl⟩
  · rw [if_neg hphase]
    exact Or.inr ⟨⟨pos, .patchAfterLink⟩, rfl, rfl, Or.inl rfl⟩

end Exec
end StackVM
