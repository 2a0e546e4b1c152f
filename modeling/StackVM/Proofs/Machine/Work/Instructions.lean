import StackVM.Proofs.Machine.Atomic.Instructions
import StackVM.Proofs.Machine.Names
import StackVM.Proofs.Machine.Trace

/-! # Instructions and the machine

Nearly every instruction does no more to the machine than to work on the store. It is said of a
computation by `Spares`, and by `Works` if it may also name globals and assign to them.
-/
namespace StackVM

namespace Machine

/-- The smallest changes of a machine outside linking. -/
inductive Works : Machine → Machine → Prop
  | resolve (m : Machine) (name : String) :
      Works m { m with globals := (m.globals.resolve name).2 }
  | assign (m : Machine) (index : Nat) (v : Value) :
      Works m { m with globals := m.globals.set index v }
  | store (m : Machine) (st : Store) : Works m { m with store := st }

def Worked : Machine → Machine → Prop := Relation.ReflTransGen Works

theorem Worked.refl (m : Machine) : m.Worked m := Relation.ReflTransGen.refl

theorem Worked.trans {m m' m'' : Machine} (h : m.Worked m') (h' : m'.Worked m'') : m.Worked m'' :=
  Relation.ReflTransGen.trans h h'

theorem Works.worked {m m' : Machine} (h : m.Works m') : m.Worked m' :=
  Relation.ReflTransGen.single h

theorem Worked.code {m m' : Machine} (h : m.Worked m') :
    m'.program = m.program ∧ m'.phase = m.phase := by
  induction h with
  | refl => exact ⟨rfl, rfl⟩
  | tail _ hwork ih => cases hwork <;> exact ih

theorem worked_defineNative (m : Machine) (native : Native) :
    m.Worked (m.defineNative native).2 := by
  have hname := Works.resolve m native.name
  have hstore := Works.store { m with globals := (m.globals.resolve native.name).2 }
    (m.defineNative native).2.store
  exact hname.worked.trans (hstore.worked.trans (Works.assign _ _ _).worked)

end Machine

theorem State.worked_withStore {α : Type} (s : State) (make : Store → α × Store) :
    s.machine.Worked (s.withStore make).2.machine :=
  (Machine.Works.store s.machine (make s.machine.store).2).worked

namespace Exec
variable {α β : Type} {x : Exec α} {pos next : Nat} {base : Base}

/-- The state that a computation leaves, whichever way it ends. -/
def left (x : Exec α) (s : State) : State :=
  match x s with
  | .ok _ s' | .error _ s' => s'

theorem left_eq_of_ok {s s' : State} {a : α} (h : x s = .ok a s') : x.left s = s' := by
  simp only [left, h]

theorem left_eq_of_error {s s' : State} {f : Fault} (h : x s = .error f s') : x.left s = s' := by
  simp only [left, h]

/-- The computation does nothing to the machine but work on it. -/
def Works (x : Exec α) : Prop := ∀ s : State, s.machine.Worked (x.left s).machine

/-- It spares the machine: of that it works on the store at most. -/
def Spares (x : Exec α) : Prop :=
  ∀ s : State, ∃ st, (x.left s).machine = { s.machine with store := st }

theorem Spares.works (h : Spares x) : Works x := by
  intro s
  obtain ⟨st, hst⟩ := h s
  rw [hst]
  exact (Machine.Works.store s.machine st).worked

theorem Spares.pure (a : α) : Spares (Pure.pure a) := fun s => ⟨s.machine.store, rfl⟩

theorem Spares.bind {f : α → Exec β} (hx : Spares x) (hf : ∀ a, Spares (f a)) :
    Spares (x >>= f) := by
  intro s
  obtain ⟨st, hst⟩ := hx s
  cases hres : x s with
  | ok a s' =>
    have hleft : (x >>= f).left s = (f a).left s' := by simp only [left, bind_apply, hres]
    obtain ⟨st', hst'⟩ := hf a s'
    rw [left_eq_of_ok hres] at hst
    rw [hleft, hst', hst]
    exact ⟨st', rfl⟩
  | error e s' =>
    have hleft : (x >>= f).left s = s' := by simp only [left, bind_apply, hres]
    rw [left_eq_of_error hres] at hst
    rw [hleft]
    exact ⟨st, hst⟩

theorem Spares.ite {c : Prop} [Decidable c] {y : Exec α} (hx : Spares x) (hy : Spares y) :
    Spares (if c then x else y) := by
  split
  · exact hx
  · exact hy

theorem Spares.of_machine_eq (h : ∀ s, (x.left s).machine = s.machine) : Spares x := by
  intro s
  rw [h s]
  exact ⟨s.machine.store, rfl⟩

theorem Reads.spares (h : Reads x) : Spares x := by
  apply Spares.of_machine_eq
  intro s
  rcases h s with ⟨a, ha⟩ | ⟨e, he⟩
  · rw [left_eq_of_ok ha]
  · rw [left_eq_of_error he]

theorem fault_spares {cause : Cause} : Spares (fault pos cause : Exec α) := reads_fault.spares

theorem create_spares (make : Store → α × Store) : Spares (create make) := fun s =>
  ⟨(make s.machine.store).2, rfl⟩

theorem modifyContext_spares (f : Context → Context) : Spares (modifyContext f) := fun s =>
  ⟨s.machine.store, rfl⟩

theorem push_spares (v : Value) : Spares (push pos v) := by
  apply Spares.of_machine_eq
  intro s
  by_cases hroom : s.context.sp < Capacity.stack <;> simp [left, push, hroom]

theorem pushNew_spares (make : Store → Value × Store) : Spares (pushNew pos make) := by
  intro s
  by_cases hroom : s.context.sp < Capacity.stack
  · simp only [left, pushNew, hroom, if_true]
    exact ⟨(make s.machine.store).2, rfl⟩
  · simp only [left, pushNew, hroom, if_false]
    exact ⟨s.machine.store, rfl⟩

theorem pop_spares : Spares (pop pos) := by
  apply Spares.of_machine_eq
  intro s
  cases hstack : s.context.stack <;> simp [left, pop, hstack]

theorem discard_spares (n : Nat) : Spares (discard n) := fun s => ⟨s.machine.store, rfl⟩

theorem popN_spares (n : Nat) : Spares (popN pos n) :=
  (reads_top n).spares.bind fun _ => (discard_spares n).bind fun _ => .pure _

theorem pushHandler_spares (h : Handler) : Spares (pushHandler pos h) := by
  apply Spares.of_machine_eq
  intro s
  by_cases hroom : s.context.handlerCount < Capacity.handlers <;>
    simp [left, pushHandler, hroom]

theorem pushFrame_spares (c : Closure) (args : List Value) (returnIp savedSp : Nat) :
    Spares (pushFrame pos c args returnIp savedSp) :=
  reads_requireFrame.spares.bind fun _ => (create_spares _).bind fun _ => modifyContext_spares _

theorem setSlot_spares (r : LocalsRef) (slot : UInt8) (v : Value) : Spares (setSlot r slot v) :=
  create_spares _

theorem pushNext_spares (v : Value) : Spares (pushNext pos v) :=
  (push_spares v).bind fun _ => .pure _

theorem dup_spares : Spares (dup pos) := reads_peek.spares.bind fun v => pushNext_spares v

theorem drop_spares : Spares (drop pos) := pop_spares.bind fun _ => .pure _

theorem throw_spares : Spares (throw pos) := pop_spares.bind fun _ => .pure _

theorem call_spares (count : Nat) : Spares (call pos count) := by
  apply (reads_require (count + 1)).spares.bind
  intro _
  apply reads_peek.spares.bind
  intro v
  split
  · exact (reads_top (count + 1)).spares.bind fun _ => .pure _
  · exact (create_spares _).bind fun _ => (discard_spares (count + 1)).bind fun _ => .pure _

theorem halt_spares : Spares (halt base pos) := by
  apply Spares.ite fault_spares
  apply reads_context.spares.bind
  intro c
  split
  · exact (discard_spares 1).bind fun _ => .pure _
  · exact fault_spares

theorem popFunction_spares {define : Function → Exec Unit} (h : ∀ f, Spares (define f)) :
    Spares (popFunction pos define) := by
  apply pop_spares.bind
  intro v
  split
  · exact (h _).bind fun _ => .pure _
  · exact (create_spares _).bind fun _ => .pure _

theorem globalUndefined_spares (index : Nat) : Spares (globalUndefined pos index : Exec α) :=
  reads_machine.spares.bind fun _ => fault_spares

theorem fetchGlobal_spares (index : Nat) : Spares (fetchGlobal pos index) := by
  apply reads_machine.spares.bind
  intro m
  split
  · exact .ite (globalUndefined_spares index) (pushNext_spares _)
  · exact globalUndefined_spares index

theorem globalDefined_spares (index : Nat) : Spares (globalDefined pos index) :=
  reads_machine.spares.bind fun _ => pushNext_spares _

theorem storeSlot_spares (r : LocalsRef) (slot : UInt8) : Spares (storeSlot pos r slot) :=
  pop_spares.bind fun v => (setSlot_spares r slot v).bind fun _ => .pure _

theorem defSlotFun_spares (r : LocalsRef) (slot : UInt8) (name : String) :
    Spares (defSlotFun pos r slot name) := by
  apply popFunction_spares
  intro f
  apply (reads_slot? r slot).spares.bind
  intro _
  exact (create_spares _).bind fun merged => setSlot_spares r slot merged

theorem fetchLocal_spares (slot : UInt8) : Spares (fetchLocal pos slot) :=
  (reads_localSlot slot).spares.bind fun _ => .ite fault_spares (pushNext_spares _)

theorem storeLocal_spares (slot : UInt8) : Spares (storeLocal pos slot) :=
  (reads_localSlot slot).spares.bind fun found => storeSlot_spares found.1 slot

theorem localDefined_spares (slot : UInt8) : Spares (localDefined pos slot) :=
  (reads_localSlot slot).spares.bind fun _ => pushNext_spares _

theorem defLocalFun_spares (slot : UInt8) : Spares (defLocalFun pos slot) :=
  (reads_localSlot slot).spares.bind fun found => defSlotFun_spares found.1 slot _

theorem fetchUpvar_spares (var : Upvar) : Spares (fetchUpvar pos var) :=
  (reads_upvarSlot var).spares.bind fun _ => .ite fault_spares (pushNext_spares _)

theorem storeUpvar_spares (var : Upvar) : Spares (storeUpvar pos var) :=
  (reads_upvarSlot var).spares.bind fun found => storeSlot_spares found.1 var.slot

theorem upvarDefined_spares (var : Upvar) : Spares (upvarDefined pos var) :=
  (reads_upvarSlot var).spares.bind fun _ => pushNext_spares _

theorem defUpvarFun_spares (var : Upvar) : Spares (defUpvarFun pos var) :=
  (reads_upvarSlot var).spares.bind fun found => defSlotFun_spares found.1 var.slot _

theorem makeArr_spares (count : Nat) : Spares (makeArr pos count) :=
  (popN_spares count).bind fun _ => (pushNew_spares _).bind fun _ => .pure _

theorem makeStr_spares (count : Nat) : Spares (makeStr pos count) := by
  apply (reads_top count).spares.bind
  intro parts
  split
  · exact fault_spares
  · exact (discard_spares count).bind fun _ => pushNext_spares _

theorem makeHash_spares (pairs : Nat) : Spares (makeHash pos pairs) := by
  apply (popN_spares (2 * pairs)).bind
  intro flat
  split
  · exact (pushNew_spares _).bind fun _ => .pure _
  · exact (create_spares _).bind fun _ => .pure _

theorem makeClosure_spares (e : EntryPoint) : Spares (makeClosure pos next e) := by
  apply Spares.ite fault_spares
  apply (reads_jumpTarget e.offset).spares.bind
  intro entry
  apply (reads_top e.params.toNat).spares.bind
  intro declared
  apply (reads_mapM reads_paramType declared).spares.bind
  intro paramTypes
  apply (discard_spares e.params.toNat).bind
  intro _
  exact reads_context.spares.bind fun _ => (pushNew_spares _).bind fun _ => .pure _

theorem toStr_spares : Spares (toStr pos) :=
  pop_spares.bind fun _ => reads_store.spares.bind fun _ => pushNext_spares _

theorem toBool_spares : Spares (toBool pos) :=
  pop_spares.bind fun _ => reads_store.spares.bind fun _ => pushNext_spares _

theorem jump_spares (offset : Int16) : Spares (jump pos next offset) :=
  (reads_jumpTarget offset).spares.bind fun _ => .pure _

theorem branch_spares (offset : Int16) (wanted : Bool) :
    Spares (branch pos next offset wanted) := by
  apply (reads_jumpTarget offset).spares.bind
  intro target
  apply pop_spares.bind
  intro v
  exact reads_store.spares.bind fun _ => .ite (.pure _) (.pure _)

theorem tryStart_spares (offset : Int16) : Spares (tryStart pos next offset) := by
  apply (reads_jumpTarget offset).spares.bind
  intro catchIp
  exact reads_context.spares.bind fun _ => (pushHandler_spares _).bind fun _ => .pure _

theorem tryEnd_spares : Spares (tryEnd base pos) := by
  apply reads_context.spares.bind
  intro c
  exact .ite ((modifyContext_spares _).bind fun _ => .pure _) fault_spares

theorem ret_spares : Spares (ret base pos) := by
  apply reads_frame.spares.bind
  intro f
  apply reads_context.spares.bind
  intro c
  apply Spares.ite fault_spares
  apply reads_context.spares.bind
  intro c'
  apply Spares.ite fault_spares
  apply pop_spares.bind
  intro v
  apply (modifyContext_spares _).bind
  intro _
  exact .ite (.pure _) ((push_spares v).bind fun _ => .pure _)

/-- The opcodes that name a global or assign to one, and those that link code. -/
def configures : Opcode → Bool
  | .resolveGlobal | .storeGlobal | .defGlobalFun | .patch | .initDone => true
  | _ => false

theorem instr_spares {i : Instr} (h : configures i.opcode = false) :
    Spares (instr base pos next i) := by
  obtain ⟨op, x⟩ := i
  cases op with
  | halt => exact halt_spares
  | pushNull | pushFalse | pushTrue | pushUndef | pushInt | pushText | pushEmptyStr =>
    exact pushNext_spares _
  | dup => exact dup_spares
  | pop => exact drop_spares
  | fetchGlobal => exact fetchGlobal_spares _
  | globalDefined => exact globalDefined_spares _
  | fetchLocal => exact fetchLocal_spares _
  | storeLocal => exact storeLocal_spares _
  | localDefined => exact localDefined_spares _
  | defLocalFun => exact defLocalFun_spares _
  | fetchUpvar => exact fetchUpvar_spares _
  | storeUpvar => exact storeUpvar_spares _
  | upvarDefined => exact upvarDefined_spares _
  | defUpvarFun => exact defUpvarFun_spares _
  | call => exact call_spares _
  | ret => exact ret_spares
  | jump => exact jump_spares _
  | jumpTrue | jumpFalse => exact branch_spares _ _
  | makeArr => exact makeArr_spares _
  | makeStr => exact makeStr_spares _
  | makeHash => exact makeHash_spares _
  | makeClosure => exact makeClosure_spares _
  | toStr => exact toStr_spares
  | toBool => exact toBool_spares
  | tryStart => exact tryStart_spares _
  | tryEnd => exact tryEnd_spares
  | throw => exact throw_spares
  | resolveGlobal | storeGlobal | defGlobalFun | patch | initDone => cases h

end Exec
end StackVM
