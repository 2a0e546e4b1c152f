import StackVM.Proofs.Machine.Variables.Cells

/-! # Instructions on variables

An instruction reads one cell, or assigns to one, or touches none.
-/
namespace StackVM

namespace Exec
variable {s s' : State} {pos next : Nat} {base : Base} {f : Frame} {a : Address} {r : LocalsRef}
  {v : Value}

/-- The computation has a result with this property, or it faults and binds nothing. -/
def Ends (s : State) (post : Step → State → Prop) (x : Exec Step) : Prop :=
  match x s with
  | .ok step s' => post step s'
  | .error _ s' => s.KeepsScopes s'

theorem Ends.ok {post : Step → State → Prop} {x : Exec Step} {step : Step} (h : Ends s post x)
    (hx : x s = .ok step s') : post step s' := by
  unfold Ends at h
  rw [hx] at h
  exact h

theorem Ends.error {post : Step → State → Prop} {x : Exec Step} {e : Fault} (h : Ends s post x)
    (hx : x s = .error e s') : s.KeepsScopes s' := by
  unfold Ends at h
  rw [hx] at h
  exact h

theorem Ends.mono {post post' : Step → State → Prop} {x : Exec Step} (h : Ends s post x)
    (himp : ∀ step s', post step s' → post' step s') : Ends s post' x := by
  unfold Ends at h ⊢
  cases hres : x s with
  | ok step s' =>
    rw [hres] at h
    exact himp step s' h
  | error e s' =>
    rw [hres] at h
    exact h

theorem Ends.read {α : Type} {x : Exec α} {f : α → Exec Step} {post : Step → State → Prop}
    (hx : Reads x) (hf : ∀ a, x s = .ok a s → Ends s post (f a)) : Ends s post (x >>= f) := by
  unfold Ends
  rw [bind_apply]
  rcases hx s with ⟨a, ha⟩ | ⟨e, he⟩
  · rw [ha]
    exact hf a ha
  · rw [he]
    exact .refl s

theorem Keeps.ends {x : Exec Step} {post : Step → State → Prop} (h : Keeps x)
    (hpost : ∀ step s', s.KeepsScopes s' → post step s') : Ends s post x := by
  have hkeeps := h s
  unfold Ends
  cases hres : x s with
  | ok step s' =>
    rw [left_eq_of_ok hres] at hkeeps
    exact hpost step s' hkeeps
  | error e s' =>
    rw [left_eq_of_error hres] at hkeeps
    exact hkeeps

/-- Nothing was bound, or a value went into one of these cells and the run goes on. -/
def Assigns (s : State) (cell : Cell → Prop) (step : Step) (s' : State) : Prop :=
  s.KeepsScopes s' ∨ step = .next ∧ ∃ k v, cell k ∧ s.Assigned k v s'

/-- The local variables that an address of the current frame is about, and the content there. -/
def locate (pos : Nat) : Address → Exec (LocalsRef × Value)
  | .own slot => localSlot pos slot
  | .captured var => upvarSlot pos var

theorem slot?_apply (r : LocalsRef) (slot : UInt8) (s : State) :
    slot? r slot s = .ok (s.machine.store.content? ⟨r, slot.toNat⟩) s := rfl

theorem locate_eq_ok (h : locate pos a s = .ok (r, v) s') :
    s' = s ∧ ∃ f fs, s.context.frames = f :: fs ∧
      f.cell? s.machine.store a = some ⟨r, a.slot.toNat⟩ := by
  cases hframes : s.context.frames with
  | nil =>
    cases a with
    | own slot => simp [locate, localSlot, bind_apply, frame, hframes] at h
    | captured var => simp [locate, upvarSlot, bind_apply, frame, hframes] at h
  | cons f fs =>
    cases a with
    | own slot =>
      simp only [locate, localSlot, bind_apply, frame, hframes, slot?_apply] at h
      cases hv : s.machine.store.content? ⟨f.locals, slot.toNat⟩ with
      | none =>
        rw [hv] at h
        cases h
      | some w =>
        rw [hv] at h
        cases h
        refine ⟨rfl, f, fs, rfl, Frame.cell?_eq_some_iff.mpr ⟨rfl, rfl, ?_⟩⟩
        exact Option.isSome_iff_exists.mpr ⟨_, hv⟩
    | captured var =>
      simp only [locate, upvarSlot, bind_apply, frame, hframes] at h
      cases hscope : f.scope[var.depth.toNat]? with
      | none =>
        rw [hscope] at h
        cases h
      | some home =>
        simp only [hscope, bind_apply, slot?_apply] at h
        cases hv : s.machine.store.content? ⟨home, var.slot.toNat⟩ with
        | none =>
          rw [hv] at h
          cases h
        | some w =>
          rw [hv] at h
          cases h
          refine ⟨rfl, f, fs, rfl, Frame.cell?_eq_some_iff.mpr ⟨hscope, rfl, ?_⟩⟩
          exact Option.isSome_iff_exists.mpr ⟨_, hv⟩

theorem locate_apply {fs : List Frame} {k : Cell} (hframes : s.context.frames = f :: fs)
    (hk : f.cell? s.machine.store a = some k) (hv : s.machine.store.content? k = some v) :
    locate pos a s = .ok (k.scope, v) s := by
  obtain ⟨hhome, hslot, -⟩ := Frame.cell?_eq_some_iff.mp hk
  obtain ⟨home, slot⟩ := k
  cases hslot
  cases a with
  | own slot =>
    cases hhome
    simp only [locate, localSlot, bind_apply, frame, hframes, slot?_apply]
    rw [show s.machine.store.content? ⟨f.locals, slot.toNat⟩ = some v from hv]
    rfl
  | captured var =>
    have hscope : f.scope[var.depth.toNat]? = some home := hhome
    simp only [locate, upvarSlot, bind_apply, frame, hframes, hscope, slot?_apply]
    rw [show s.machine.store.content? ⟨home, var.slot.toNat⟩ = some v from hv]
    rfl

section Instructions
variable {i : Instr}

theorem instr_stores (h : i.stores? = some a) :
    instr base pos next i = locate pos a >>= fun found => storeSlot pos found.1 a.slot := by
  obtain ⟨op, x⟩ := i
  cases op with
  | storeLocal | storeUpvar =>
    cases h
    rfl
  | _ => cases h

theorem instr_defines (base : Base) (pos next : Nat) (h : i.defines? = some a) :
    ∃ name, instr base pos next i =
      locate pos a >>= fun found => defSlotFun pos found.1 a.slot name := by
  obtain ⟨op, x⟩ := i
  cases op with
  | defLocalFun | defUpvarFun =>
    cases h
    exact ⟨_, rfl⟩
  | _ => cases h

theorem storeSlot_apply {rest : List Value} (hstack : s.context.stack = v :: rest) (pos : Nat)
    (r : LocalsRef) (slot : UInt8) :
    ∃ s', storeSlot pos r slot s = .ok .next s' ∧ s.Assigned ⟨r, slot.toNat⟩ v s' := by
  simp only [storeSlot, bind_apply, pop, hstack]
  exact ⟨_, rfl, rfl, rfl, rfl⟩

theorem storeSlot_ends (r : LocalsRef) (slot : UInt8) (s : State) :
    Ends s (Assigns s (· = ⟨r, slot.toNat⟩)) (storeSlot pos r slot) := by
  unfold Ends
  cases hstack : s.context.stack with
  | nil =>
    have hempty : storeSlot pos r slot s = .error ⟨pos, .stackUnderflow⟩ s := by
      simp only [storeSlot, bind_apply, pop, hstack]
    rw [hempty]
    exact .refl s
  | cons v rest =>
    obtain ⟨s', hs', hassigned⟩ := storeSlot_apply hstack pos r slot
    rw [hs']
    exact .inr ⟨rfl, _, v, rfl, hassigned⟩

theorem defSlotFun_apply {f : Function} {rest : List Value} {r : LocalsRef} {slot : UInt8}
    {name : String} {merged : Value} {st : Store} (hstack : s.context.stack = .func f :: rest)
    (hmerged : s.machine.store.defineOverload
      ((s.machine.store.content? ⟨r, slot.toNat⟩).getD .undef) f name = (merged, st)) :
    defSlotFun pos r slot name s = .ok .next
      ⟨{ s.machine with store := st.setSlot r slot.toNat merged },
        { s.context with stack := rest }⟩ := by
  simp only [defSlotFun, popFunction, bind_apply, pop, hstack, slot?_apply, create, State.withStore,
    hmerged]
  rfl

theorem defSlotFun_ends (r : LocalsRef) (slot : UInt8) (name : String) (s : State) :
    Ends s (Assigns s (· = ⟨r, slot.toNat⟩)) (defSlotFun pos r slot name) := by
  by_cases hfun : ∃ f rest, s.context.stack = .func f :: rest
  · obtain ⟨f, rest, hstack⟩ := hfun
    have hscopes := Store.SameScopes.defineOverload s.machine.store
      ((s.machine.store.content? ⟨r, slot.toNat⟩).getD .undef) f name
    cases hmerged : s.machine.store.defineOverload
      ((s.machine.store.content? ⟨r, slot.toNat⟩).getD .undef) f name with
    | mk merged st =>
      rw [hmerged] at hscopes
      unfold Ends
      rw [defSlotFun_apply hstack hmerged]
      refine .inr ⟨rfl, _, merged, rfl, rfl, ?_, hscopes.closures⟩
      have hlocals : st.locals = s.machine.store.locals := hscopes.locals
      simp only [Store.setSlot, hlocals]
  · have hother : defSlotFun pos r slot name s = popFunction pos (fun _ => pure ()) s := by
      simp only [defSlotFun, popFunction, bind_apply, pop]
      cases hstack : s.context.stack with
      | nil => rfl
      | cons v rest =>
        cases v with
        | func f => exact absurd ⟨f, rest, hstack⟩ hfun
        | _ => rfl
    have hkeeps : Keeps (popFunction pos fun _ => pure ()) := popFunction_keeps fun _ => .pure ()
    have hends : Ends s (Assigns s (· = ⟨r, slot.toNat⟩)) (popFunction pos fun _ => pure ()) :=
      hkeeps.ends fun _ _ => .inl
    unfold Ends at hends ⊢
    rw [hother]
    exact hends

theorem reads_locate (a : Address) : Reads (locate pos a) := by
  cases a with
  | own slot => exact reads_localSlot slot
  | captured var => exact reads_upvarSlot var

/-- An assignment goes to the cell that the current frame has at the address, if anywhere. -/
theorem instr_assigns (h : i.assigns? = some a) (s : State) :
    Ends s (Assigns s fun k => ∃ f fs, s.context.frames = f :: fs ∧
      f.cell? s.machine.store a = some k) (instr base pos next i) := by
  have hput : ∀ put : LocalsRef → Exec Step,
      (∀ r, Ends s (Assigns s (· = ⟨r, a.slot.toNat⟩)) (put r)) →
      Ends s (Assigns s fun k => ∃ f fs, s.context.frames = f :: fs ∧
        f.cell? s.machine.store a = some k) (locate pos a >>= fun found => put found.1) := by
    intro put hput
    refine .read (reads_locate a) fun found hfound => ?_
    obtain ⟨-, f, fs, hframes, hcell⟩ := locate_eq_ok hfound
    refine (hput found.1).mono fun step s' hend => ?_
    rcases hend with hkeeps | ⟨hnext, k, v, rfl, hassigned⟩
    · exact .inl hkeeps
    · exact .inr ⟨hnext, _, v, ⟨f, fs, hframes, hcell⟩, hassigned⟩
  rcases Option.or_eq_some_iff.mp h with hstores | ⟨-, hdefines⟩
  · rw [instr_stores hstores]
    exact hput _ fun r => storeSlot_ends r a.slot s
  · obtain ⟨name, hinstr⟩ := instr_defines base pos next hdefines
    rw [hinstr]
    exact hput _ fun r => defSlotFun_ends r a.slot name s

end Instructions

end Exec
end StackVM
