import StackVM.Proofs.Machine.Instructions.Steering

/-! # Computations that change nothing when they fault

`Atomic s post x` says that `x` leaves `s` as it is when it faults, and `Succeeds s post x` that it
does not fault at all; computations that only read and computations that never touch the context
compose freely.
-/
namespace StackVM

/-- What an instruction leaves for what follows it: room for the exception it raised, or a callee
that is still on the stack with its arguments. -/
def Step.Settled (s : State) : Step → State → Prop
  | .raise _, s' => s'.context.sp < Capacity.stack
  | .invoke _ args, s' => s' = s ∧ args.length < s.context.sp
  | _, _ => True

namespace Exec
variable {α β : Type} {s s' : State} {x : Exec α} {f : α → Exec β} {pos next : Nat} {base : Base}

def Atomic (s : State) (post : α → State → Prop) (x : Exec α) : Prop :=
  match x s with
  | .ok a s' => post a s'
  | .error _ s' => s' = s

def Succeeds (s : State) (post : α → State → Prop) (x : Exec α) : Prop :=
  ∃ a s', x s = .ok a s' ∧ post a s'

/-- The state stays the same, whether or not there is a result. -/
def Reads (x : Exec α) : Prop := ∀ s, (∃ a, x s = .ok a s) ∨ ∃ e, x s = .error e s

/-- There is always a result, and the context stays the same. -/
def Quiet (x : Exec α) : Prop := ∀ s, ∃ a s', x s = .ok a s' ∧ s'.context = s.context

section Rules
variable {post : β → State → Prop} {c : Prop} [Decidable c]

theorem Atomic.of_succeeds {y : Exec β} (h : Succeeds s post y) : Atomic s post y := by
  obtain ⟨b, s', hy, hpost⟩ := h
  unfold Atomic
  rw [hy]
  exact hpost

theorem Atomic.ok {y : Exec β} {b : β} (h : Atomic s post y) (hy : y s = .ok b s') : post b s' := by
  unfold Atomic at h
  rw [hy] at h
  exact h

theorem Atomic.error {y : Exec β} {e : Fault} (h : Atomic s post y) (hy : y s = .error e s') :
    s' = s := by
  unfold Atomic at h
  rw [hy] at h
  exact h

theorem Atomic.pure {b : β} (h : post b s) : Atomic s post (Pure.pure b) := h

theorem Atomic.fault {cause : Cause} : Atomic s post (Exec.fault pos cause) := rfl

theorem Atomic.ite {y z : Exec β} (hy : c → Atomic s post y) (hz : ¬ c → Atomic s post z) :
    Atomic s post (if c then y else z) := by
  by_cases hc : c
  · rw [if_pos hc]
    exact hy hc
  · rw [if_neg hc]
    exact hz hc

theorem Atomic.read (hx : Reads x) (hf : ∀ a, x s = .ok a s → Atomic s post (f a)) :
    Atomic s post (x >>= f) := by
  unfold Atomic
  rw [bind_apply]
  rcases hx s with ⟨a, ha⟩ | ⟨e, he⟩
  · rw [ha]
    exact hf a ha
  · rw [he]

theorem Succeeds.pure {b : β} (h : post b s) : Succeeds s post (Pure.pure b) := ⟨b, s, rfl, h⟩

theorem Succeeds.bind {a : α} (hx : x s = .ok a s') (hf : Succeeds s' post (f a)) :
    Succeeds s post (x >>= f) := by
  obtain ⟨b, t, hb, hpost⟩ := hf
  refine ⟨b, t, ?_, hpost⟩
  rw [bind_apply, hx]
  exact hb

theorem Succeeds.quiet (hx : Quiet x)
    (hf : ∀ a s', s'.context = s.context → Succeeds s' post (f a)) : Succeeds s post (x >>= f) := by
  obtain ⟨a, s', ha, hcontext⟩ := hx s
  exact .bind ha (hf a s' hcontext)

theorem Atomic.pop {f : Value → Exec β}
    (hf : ∀ v s', s'.context.sp + 1 = s.context.sp → Succeeds s' post (f v)) :
    Atomic s post (Exec.pop pos >>= f) := by
  cases hstack : s.context.stack with
  | nil =>
    unfold Atomic
    rw [bind_apply, Exec.pop, hstack]
  | cons v rest =>
    have hpop : Exec.pop pos s =
        .ok v { s with context := { s.context with stack := rest } } := by
      rw [Exec.pop, hstack]
    refine Atomic.of_succeeds (Succeeds.bind hpop (hf v _ ?_))
    simp [Context.sp, hstack]

theorem Succeeds.discard {n : Nat} {f : Unit → Exec β} (hn : 0 < n) (hsp : 0 < s.context.sp)
    (hroom : s.context.sp ≤ Capacity.stack)
    (hf : ∀ s', s'.context.sp < Capacity.stack → Succeeds s' post (f ())) :
    Succeeds s post (Exec.discard n >>= f) := by
  refine .bind rfl (hf _ ?_)
  simp only [Context.sp, List.length_drop] at *
  omega

theorem Atomic.discard {n : Nat} {f : Unit → Exec β} (hn : n ≤ s.context.sp)
    (hroom : s.context.sp ≤ Capacity.stack)
    (hfree : ∀ s', s'.context.sp < Capacity.stack → Succeeds s' post (f ()))
    (hfull : n = 0 → Atomic s post (f ())) : Atomic s post (Exec.discard n >>= f) := by
  cases n with
  | zero => exact hfull rfl
  | succ n => exact .of_succeeds (.discard (by omega) (by omega) hroom hfree)

theorem popN_apply {n : Nat} (hn : n ≤ s.context.sp) (pos : Nat) :
    Exec.popN pos n s = .ok (s.context.stack.take n).reverse
      { s with context := { s.context with stack := s.context.stack.drop n } } := by
  simp only [Exec.popN, top, bind_apply, if_neg (Nat.not_lt.mpr hn), Exec.discard]
  rfl

theorem Atomic.popN {n : Nat} {f : List Value → Exec β} (hroom : s.context.sp ≤ Capacity.stack)
    (hfree : ∀ values s', s'.context.sp < Capacity.stack → Succeeds s' post (f values))
    (hfull : Atomic s post (f [])) : Atomic s post (Exec.popN pos n >>= f) := by
  by_cases hn : s.context.sp < n
  · have hpop : Exec.popN pos n s = .error ⟨pos, .stackUnderflow⟩ s := by
      simp only [Exec.popN, top, bind_apply, if_pos hn]
    unfold Atomic
    rw [bind_apply, hpop]
  · have hpop := popN_apply (Nat.le_of_not_lt hn) pos
    cases n with
    | zero =>
      unfold Atomic
      rw [bind_apply, hpop]
      exact hfull
    | succ n =>
      refine .of_succeeds (.bind hpop (hfree _ _ ?_))
      simp only [Context.sp, List.length_drop] at *
      omega

theorem Succeeds.pushFrame {c : Closure} {args : List Value} {returnIp savedSp : Nat}
    {f : Unit → Exec β} (h : s.context.depth < Capacity.frames)
    (hf : ∀ s', Succeeds s' post (f ())) :
    Succeeds s post (Exec.pushFrame pos c args returnIp savedSp >>= f) := by
  have hpush : ∃ s', Exec.pushFrame pos c args returnIp savedSp s = .ok () s' := by
    unfold Exec.pushFrame
    rw [bind_apply, Exec.requireFrame, if_pos h]
    exact ⟨_, rfl⟩
  obtain ⟨s', hs'⟩ := hpush
  exact .bind hs' (hf s')

end Rules

theorem reads_pure (a : α) : Reads (Pure.pure a) := fun _ => .inl ⟨a, rfl⟩

theorem reads_fault {cause : Cause} : Reads (fault pos cause : Exec α) := fun _ => .inr ⟨_, rfl⟩

theorem reads_context : Reads context := fun s => .inl ⟨s.context, rfl⟩

theorem reads_machine : Reads machine := fun s => .inl ⟨s.machine, rfl⟩

theorem reads_store : Reads store := fun s => .inl ⟨s.machine.store, rfl⟩

theorem Reads.bind (hx : Reads x) (hf : ∀ a, Reads (f a)) : Reads (x >>= f) := by
  intro s
  rw [bind_apply]
  rcases hx s with ⟨a, ha⟩ | ⟨e, he⟩
  · rw [ha]
    exact hf a s
  · rw [he]
    exact .inr ⟨e, rfl⟩

theorem reads_peek : Reads (peek pos) := by
  intro s
  unfold peek
  cases s.context.stack with
  | nil => exact .inr ⟨_, rfl⟩
  | cons v rest => exact .inl ⟨v, rfl⟩

theorem reads_top (n : Nat) : Reads (top pos n) := by
  intro s
  unfold top
  by_cases hn : s.context.sp < n
  · rw [if_pos hn]
    exact .inr ⟨_, rfl⟩
  · rw [if_neg hn]
    exact .inl ⟨_, rfl⟩

theorem le_sp_of_top {n : Nat} {values : List Value} (h : top pos n s = .ok values s') :
    n ≤ s.context.sp := by
  unfold top at h
  by_contra hlt
  rw [if_pos (by omega)] at h
  cases h

theorem reads_require (n : Nat) : Reads (require pos n) := by
  intro s
  unfold require
  by_cases hn : s.context.sp < n
  · rw [if_pos hn]
    exact .inr ⟨_, rfl⟩
  · rw [if_neg hn]
    exact .inl ⟨_, rfl⟩

theorem reads_frame : Reads (frame pos) := by
  intro s
  unfold frame
  cases s.context.frames with
  | nil => exact .inr ⟨_, rfl⟩
  | cons f rest => exact .inl ⟨f, rfl⟩

theorem reads_requireFrame : Reads (requireFrame pos) := by
  intro s
  unfold requireFrame
  by_cases hroom : s.context.depth < Capacity.frames
  · rw [if_pos hroom]
    exact .inl ⟨_, rfl⟩
  · rw [if_neg hroom]
    exact .inr ⟨_, rfl⟩

theorem reads_jumpTarget (offset : Int16) : Reads (jumpTarget pos next offset) := by
  refine reads_machine.bind fun m => ?_
  dsimp only
  split
  · exact reads_pure _
  · exact reads_fault

theorem reads_slot? (r : LocalsRef) (slot : UInt8) : Reads (slot? r slot) :=
  reads_store.bind fun _ => reads_pure _

theorem reads_localSlot (slot : UInt8) : Reads (localSlot pos slot) := by
  refine reads_frame.bind fun f => (reads_slot? f.locals slot).bind fun v => ?_
  split
  · exact reads_pure _
  · exact reads_fault

theorem reads_upvarSlot (var : Upvar) : Reads (upvarSlot pos var) := by
  refine reads_frame.bind fun f => ?_
  split
  · exact reads_fault
  · refine (reads_slot? _ var.slot).bind fun v => ?_
    split
    · exact reads_pure _
    · exact reads_fault

theorem reads_paramType (v : Value) : Reads (paramType pos v) := by
  unfold paramType
  split
  · exact reads_pure _
  · exact reads_pure _
  · exact reads_fault

theorem reads_mapM {g : β → Exec α} (hg : ∀ b, Reads (g b)) (bs : List β) : Reads (bs.mapM g) := by
  induction bs with
  | nil => exact reads_pure []
  | cons b bs ih =>
    rw [List.mapM_cons]
    exact (hg b).bind fun _ => ih.bind fun _ => reads_pure _

theorem quiet_pure (a : α) : Quiet (Pure.pure a) := fun s => ⟨a, s, rfl, rfl⟩

theorem quiet_context : Quiet context := fun s => ⟨s.context, s, rfl, rfl⟩

theorem quiet_machine : Quiet machine := fun s => ⟨s.machine, s, rfl, rfl⟩

theorem quiet_store : Quiet store := fun s => ⟨s.machine.store, s, rfl, rfl⟩

theorem quiet_create (make : Store → α × Store) : Quiet (create make) :=
  fun _ => ⟨_, _, rfl, rfl⟩

theorem quiet_modifyMachine (g : Machine → Machine) : Quiet (modifyMachine g) :=
  fun _ => ⟨(), _, rfl, rfl⟩

theorem quiet_resolveName (name : String) : Quiet (resolveName name) := fun _ => ⟨_, _, rfl, rfl⟩

theorem Quiet.bind (hx : Quiet x) (hf : ∀ a, Quiet (f a)) : Quiet (x >>= f) := by
  intro s
  obtain ⟨a, s', ha, hs'⟩ := hx s
  obtain ⟨b, t, hb, ht⟩ := hf a s'
  refine ⟨b, t, ?_, ht.trans hs'⟩
  rw [bind_apply, ha]
  exact hb

theorem quiet_setGlobal (index : Nat) (v : Value) : Quiet (setGlobal index v) :=
  quiet_modifyMachine _

theorem quiet_setSlot (r : LocalsRef) (slot : UInt8) (v : Value) : Quiet (setSlot r slot v) :=
  quiet_create _

theorem quiet_slot? (r : LocalsRef) (slot : UInt8) : Quiet (slot? r slot) :=
  quiet_store.bind fun _ => quiet_pure _

end Exec
end StackVM
