import StackVM.Proofs.Machine.Effect.Natives
import StackVM.Proofs.Machine.Relay
import StackVM.Proofs.Machine.Work.Steps

/-! # Instructions that bind nothing

Code reaches its variables through the frames of the context, the local variables in the store and
the closures that captured them. All but a few instructions leave these alone, whichever way they
end, but for frames that they drop. `MAKE_CLOSURE` adds a closure, and four instructions assign to a
local or captured variable.
-/
namespace StackVM

structure Store.SameScopes (st st' : Store) : Prop where
  locals : st'.locals = st.locals
  closures : st'.closures = st.closures

/-- Nothing was bound between the two states. Frames may have been dropped. -/
structure State.KeepsScopes (s s' : State) : Prop where
  frames : s'.context.frames <:+ s.context.frames
  store : s.machine.store.SameScopes s'.machine.store

namespace Store.SameScopes
variable {st st' st'' : Store}

theorem refl (st : Store) : st.SameScopes st := ⟨rfl, rfl⟩

theorem trans (h : st.SameScopes st') (h' : st'.SameScopes st'') : st.SameScopes st'' :=
  ⟨h'.locals.trans h.locals, h'.closures.trans h.closures⟩

theorem newArr (st : Store) (items : Array Value) : st.SameScopes (st.newArr items).2 := ⟨rfl, rfl⟩

theorem newHash (st : Store) (entries : Entries) : st.SameScopes (st.newHash entries).2 :=
  ⟨rfl, rfl⟩

theorem defineOverload (st : Store) (slot : Value) (f : Function) (name : String) :
    st.SameScopes (st.defineOverload slot f name).2 := by
  unfold Store.defineOverload
  split <;> exact ⟨rfl, rfl⟩

end Store.SameScopes

theorem Store.SameFixed.sameScopes {st st' : Store} (h : st.SameFixed st') : st.SameScopes st' :=
  ⟨h.locals, h.closures⟩

theorem Machine.sameScopes_defineNative (m : Machine) (native : Native) :
    m.store.SameScopes (m.defineNative native).2.store := by
  have hnew : m.store.SameScopes (m.store.newNative native).2 := ⟨rfl, rfl⟩
  exact hnew.trans (.defineOverload _ _ _ _)

namespace State.KeepsScopes
variable {s s' s'' : State}

theorem refl (s : State) : s.KeepsScopes s := ⟨List.suffix_refl _, .refl _⟩

theorem trans (h : s.KeepsScopes s') (h' : s'.KeepsScopes s'') : s.KeepsScopes s'' :=
  ⟨h'.frames.trans h.frames, h.store.trans h'.store⟩

theorem of_eq (hframes : s'.context.frames = s.context.frames)
    (hstore : s'.machine.store = s.machine.store) : s.KeepsScopes s' := by
  refine ⟨?_, ?_⟩
  · exact hframes ▸ List.suffix_refl _
  · exact hstore ▸ .refl _

theorem withStore {α : Type} (s : State) {make : Store → α × Store}
    (h : ∀ st : Store, st.SameScopes (make st).2) : s.KeepsScopes (s.withStore make).2 :=
  ⟨List.suffix_refl _, h s.machine.store⟩

end State.KeepsScopes

namespace Exec
variable {α β : Type} {x : Exec α} {pos next : Nat} {base : Base}

/-- The computation binds nothing, whichever way it ends. -/
def Keeps (x : Exec α) : Prop := ∀ s : State, s.KeepsScopes (x.left s)

theorem left_bind_of_ok {f : α → Exec β} {s s' : State} {a : α} (h : x s = .ok a s') :
    (x >>= f).left s = (f a).left s' := by
  simp only [left, bind_apply, h]

theorem left_bind_of_error {f : α → Exec β} {s s' : State} {e : Fault} (h : x s = .error e s') :
    (x >>= f).left s = s' := by
  simp only [left, bind_apply, h]

theorem Keeps.pure (a : α) : Keeps (Pure.pure a) := fun s => .refl s

theorem Keeps.bind {f : α → Exec β} (hx : Keeps x) (hf : ∀ a, Keeps (f a)) :
    Keeps (x >>= f) := by
  intro s
  have hfirst := hx s
  cases hres : x s with
  | ok a s' =>
    rw [left_eq_of_ok hres] at hfirst
    rw [left_bind_of_ok hres]
    exact hfirst.trans (hf a s')
  | error e s' =>
    rw [left_eq_of_error hres] at hfirst
    rw [left_bind_of_error hres]
    exact hfirst

theorem Keeps.ite {c : Prop} [Decidable c] {y : Exec α} (hx : Keeps x) (hy : Keeps y) :
    Keeps (if c then x else y) := by
  split
  · exact hx
  · exact hy

theorem Reads.keeps (h : Reads x) : Keeps x := by
  intro s
  rcases h s with ⟨a, ha⟩ | ⟨e, he⟩
  · rw [left_eq_of_ok ha]
    exact .refl s
  · rw [left_eq_of_error he]
    exact .refl s

theorem fault_keeps {cause : Cause} : Keeps (fault pos cause : Exec α) := reads_fault.keeps

theorem create_keeps {make : Store → α × Store} (h : ∀ st : Store, st.SameScopes (make st).2) :
    Keeps (create make) := fun s => .withStore s h

theorem modifyContext_keeps {f : Context → Context} (h : ∀ c, (f c).frames <:+ c.frames) :
    Keeps (modifyContext f) := fun s => ⟨h s.context, .refl _⟩

theorem push_keeps (v : Value) : Keeps (push pos v) := by
  intro s
  by_cases hroom : s.context.sp < Capacity.stack
  · simp only [left, push, hroom, if_true]
    exact .of_eq rfl rfl
  · simp only [left, push, hroom, if_false]
    exact .refl s

theorem pushNew_keeps {make : Store → Value × Store} (h : ∀ st : Store, st.SameScopes (make st).2) :
    Keeps (pushNew pos make) := by
  intro s
  by_cases hroom : s.context.sp < Capacity.stack
  · simp only [left, pushNew, hroom, if_true]
    exact ⟨List.suffix_refl _, h s.machine.store⟩
  · simp only [left, pushNew, hroom, if_false]
    exact .refl s

theorem pop_keeps : Keeps (pop pos) := by
  intro s
  cases hstack : s.context.stack with
  | nil =>
    simp only [left, pop, hstack]
    exact .refl s
  | cons v rest =>
    simp only [left, pop, hstack]
    exact .of_eq rfl rfl

theorem discard_keeps (n : Nat) : Keeps (discard n) := fun _ => .of_eq rfl rfl

theorem popN_keeps (n : Nat) : Keeps (popN pos n) :=
  (reads_top n).keeps.bind fun _ => (discard_keeps n).bind fun _ => .pure _

theorem pushHandler_keeps (h : Handler) : Keeps (pushHandler pos h) := by
  intro s
  by_cases hroom : s.context.handlerCount < Capacity.handlers
  · simp only [left, pushHandler, hroom, if_true]
    exact .of_eq rfl rfl
  · simp only [left, pushHandler, hroom, if_false]
    exact .refl s

theorem resolveName_keeps (name : String) : Keeps (resolveName name) := fun _ => .of_eq rfl rfl

theorem setGlobal_keeps (index : Nat) (v : Value) : Keeps (setGlobal index v) :=
  fun _ => .of_eq rfl rfl

theorem pushNext_keeps (v : Value) : Keeps (pushNext pos v) :=
  (push_keeps v).bind fun _ => .pure _

theorem call_keeps (count : Nat) : Keeps (call pos count) := by
  apply (reads_require (count + 1)).keeps.bind
  intro _
  apply reads_peek.keeps.bind
  intro v
  split
  · exact (reads_top (count + 1)).keeps.bind fun _ => .pure _
  · apply (create_keeps fun st => .newHash st _).bind
    intro _
    exact (discard_keeps (count + 1)).bind fun _ => .pure _

theorem halt_keeps : Keeps (halt base pos) := by
  apply Keeps.ite fault_keeps
  apply reads_context.keeps.bind
  intro c
  split
  · exact (discard_keeps 1).bind fun _ => .pure _
  · exact fault_keeps

theorem popFunction_keeps {define : Function → Exec Unit} (h : ∀ f, Keeps (define f)) :
    Keeps (popFunction pos define) := by
  apply pop_keeps.bind
  intro v
  split
  · exact (h _).bind fun _ => .pure _
  · exact (create_keeps fun st => .newHash st _).bind fun _ => .pure _

theorem globalUndefined_keeps (index : Nat) : Keeps (globalUndefined pos index : Exec α) :=
  reads_machine.keeps.bind fun _ => fault_keeps

theorem fetchGlobal_keeps (index : Nat) : Keeps (fetchGlobal pos index) := by
  apply reads_machine.keeps.bind
  intro m
  split
  · exact .ite (globalUndefined_keeps index) (pushNext_keeps _)
  · exact globalUndefined_keeps index

theorem storeGlobal_keeps (index : Nat) : Keeps (storeGlobal pos index) := by
  apply reads_machine.keeps.bind
  intro m
  apply Keeps.ite _ (globalUndefined_keeps index)
  exact pop_keeps.bind fun v => (setGlobal_keeps index v).bind fun _ => .pure _

theorem defGlobalFun_keeps (index : Nat) : Keeps (defGlobalFun pos index) := by
  apply reads_machine.keeps.bind
  intro m
  split
  next => exact globalUndefined_keeps index
  next current _ =>
    apply popFunction_keeps
    intro f
    apply reads_machine.keeps.bind
    intro m
    apply (create_keeps fun st => .defineOverload st current f _).bind
    exact fun merged => setGlobal_keeps index merged

theorem makeArr_keeps (count : Nat) : Keeps (makeArr pos count) :=
  (popN_keeps count).bind fun _ => (pushNew_keeps fun st => .newArr st _).bind fun _ => .pure _

theorem makeStr_keeps (count : Nat) : Keeps (makeStr pos count) := by
  apply (reads_top count).keeps.bind
  intro parts
  split
  · exact fault_keeps
  · exact (discard_keeps count).bind fun _ => pushNext_keeps _

theorem makeHash_keeps (pairs : Nat) : Keeps (makeHash pos pairs) := by
  apply (popN_keeps (2 * pairs)).bind
  intro flat
  split
  · exact (pushNew_keeps fun st => .newHash st _).bind fun _ => .pure _
  · exact (create_keeps fun st => .newHash st _).bind fun _ => .pure _

theorem resolveGlobal_keeps : Keeps (resolveGlobal pos) := by
  apply reads_peek.keeps.bind
  intro v
  split
  next name =>
    exact (resolveName_keeps name).bind fun _ => (discard_keeps 1).bind fun _ => pushNext_keeps _
  next => exact fault_keeps

theorem patch_keeps (target : UInt16) : Keeps (patch pos target) := by
  apply reads_machine.keeps.bind
  intro m
  apply Keeps.ite _ fault_keeps
  apply reads_peek.keeps.bind
  intro v
  split
  · split
    · apply reads_machine.keeps.bind
      intro m
      apply Keeps.ite _ fault_keeps
      apply (discard_keeps 1).bind
      intro _
      split
      · exact fun _ => .of_eq rfl rfl
      · exact fault_keeps
    · exact fault_keeps
  · exact fault_keeps

theorem initDone_keeps : Keeps initDone := by
  intro s
  refine .of_eq rfl ?_
  change (if s.machine.phase = .linking then { s.machine with phase := .running }
    else s.machine).store = s.machine.store
  split <;> rfl

theorem branch_keeps (offset : Int16) (wanted : Bool) :
    Keeps (branch pos next offset wanted) := by
  apply (reads_jumpTarget offset).keeps.bind
  intro target
  apply pop_keeps.bind
  intro v
  exact reads_store.keeps.bind fun _ => .ite (.pure _) (.pure _)

theorem tryStart_keeps (offset : Int16) : Keeps (tryStart pos next offset) := by
  apply (reads_jumpTarget offset).keeps.bind
  intro catchIp
  exact reads_context.keeps.bind fun _ => (pushHandler_keeps _).bind fun _ => .pure _

theorem tryEnd_keeps : Keeps (tryEnd base pos) := by
  apply reads_context.keeps.bind
  intro c
  apply Keeps.ite _ fault_keeps
  apply (modifyContext_keeps fun c => ?_).bind fun _ => .pure _
  exact List.suffix_refl c.frames

theorem ret_keeps : Keeps (ret base pos) := by
  apply reads_frame.keeps.bind
  intro f
  apply reads_context.keeps.bind
  intro c
  apply Keeps.ite fault_keeps
  apply reads_context.keeps.bind
  intro c'
  apply Keeps.ite fault_keeps
  apply pop_keeps.bind
  intro v
  apply (modifyContext_keeps fun c => List.tail_suffix c.frames).bind
  intro _
  exact .ite (.pure _) ((push_keeps v).bind fun _ => .pure _)

/-- The opcodes that make a closure or assign to a variable. -/
def binds : Opcode → Bool
  | .makeClosure | .storeLocal | .defLocalFun | .storeUpvar | .defUpvarFun => true
  | _ => false

theorem instr_keeps {i : Instr} (h : binds i.opcode = false) :
    Keeps (instr base pos next i) := by
  obtain ⟨op, x⟩ := i
  cases op with
  | halt => exact halt_keeps
  | pushNull | pushFalse | pushTrue | pushUndef | pushInt | pushText | pushEmptyStr =>
    exact pushNext_keeps _
  | dup => exact reads_peek.keeps.bind fun v => pushNext_keeps v
  | pop => exact pop_keeps.bind fun _ => .pure _
  | throw => exact pop_keeps.bind fun _ => .pure _
  | resolveGlobal => exact resolveGlobal_keeps
  | patch => exact patch_keeps _
  | initDone => exact initDone_keeps
  | fetchGlobal => exact fetchGlobal_keeps _
  | storeGlobal => exact storeGlobal_keeps _
  | globalDefined => exact reads_machine.keeps.bind fun _ => pushNext_keeps _
  | defGlobalFun => exact defGlobalFun_keeps _
  | fetchLocal =>
    exact (reads_localSlot _).keeps.bind fun _ => .ite fault_keeps (pushNext_keeps _)
  | fetchUpvar =>
    exact (reads_upvarSlot _).keeps.bind fun _ => .ite fault_keeps (pushNext_keeps _)
  | localDefined => exact (reads_localSlot _).keeps.bind fun _ => pushNext_keeps _
  | upvarDefined => exact (reads_upvarSlot _).keeps.bind fun _ => pushNext_keeps _
  | call => exact call_keeps _
  | jump => exact (reads_jumpTarget _).keeps.bind fun _ => .pure _
  | jumpTrue | jumpFalse => exact branch_keeps _ _
  | makeArr => exact makeArr_keeps _
  | makeStr => exact makeStr_keeps _
  | makeHash => exact makeHash_keeps _
  | toStr => exact pop_keeps.bind fun _ => reads_store.keeps.bind fun _ => pushNext_keeps _
  | toBool => exact pop_keeps.bind fun _ => reads_store.keeps.bind fun _ => pushNext_keeps _
  | tryStart => exact tryStart_keeps _
  | tryEnd => exact tryEnd_keeps
  | ret => exact ret_keeps
  | makeClosure | storeLocal | defLocalFun | storeUpvar | defUpvarFun => cases h

theorem unwind_keeps (exception : Value) : Keeps (unwind base pos exception) := by
  apply reads_context.keeps.bind
  intro c
  split
  next h _ =>
    apply Keeps.ite _ fault_keeps
    exact (modifyContext_keeps fun c => keepOldest_suffix _ c.frames).bind fun _ => .pure _
  next =>
    split
    · exact (modifyContext_keeps fun c => keepOldest_suffix _ c.frames).bind fun _ => .pure _
    · exact .pure _

end Exec
end StackVM
