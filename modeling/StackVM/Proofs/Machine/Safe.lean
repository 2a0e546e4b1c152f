import StackVM.Machine.Execute

/-! # Computations that keep an invariant of the code and the calls

Where execution can go is decided by the code, the closures, the frames and the handlers: the
skeleton of a state. `Safe J pos post x` says that `x` keeps the invariant `J` of the skeleton,
also when it faults, that its results satisfy `post`, and that its faults name `pos` and do not
blame the code. The rules below cover the primitives; most instructions are sequences of them
that leave the skeleton alone.
-/
namespace StackVM

structure Skeleton where
  program : Program
  closures : Array Closure
  frames : List Frame
  handlers : List Handler

def State.skeleton (s : State) : Skeleton :=
  ⟨s.machine.program, s.machine.store.closures, s.context.frames, s.context.handlers⟩

theorem State.skeleton_withStore {α : Type} {make : Store → α × Store} (s : State)
    (h : ∀ st, (make st).2.closures = st.closures) :
    (s.withStore make).2.skeleton = s.skeleton := by
  simp only [State.skeleton, State.withStore, h]

/-- The causes of faults that lie in the code itself: bytes that are no instruction, a target
outside the program, an operand that no instruction may have. -/
def Cause.blamesCode : Cause → Bool
  | .invalidOpcode _ | .truncatedOperand _ | .invalidText | .ipOutOfRange | .jumpOutOfRange _
  | .invalidPatch _ | .invalidClosure _ _ => true
  | _ => false

/-- A jump, if the step is one, goes to a target in `T`. -/
def Step.Lands (T : Nat → Prop) : Step → Prop
  | .jump target => T target
  | _ => True

namespace Exec
variable {α β : Type} {J : Skeleton → Prop} {pos : Nat}

/-- The invariant holds after a computation, whichever way it ended. -/
def Kept (J : Skeleton → Prop) (pos : Nat) (post : α → Prop) :
    EStateM.Result Fault State α → Prop
  | .ok a s => J s.skeleton ∧ post a
  | .error f s => J s.skeleton ∧ f.pos = pos ∧ f.cause.blamesCode = false

def Safe (J : Skeleton → Prop) (pos : Nat) (post : α → Prop) (x : Exec α) : Prop :=
  ∀ s, J s.skeleton → Kept J pos post (x s)

namespace Safe
variable {post : α → Prop} {x : Exec α}

theorem ok (h : Safe J pos post x) {s s' : State} {a : α} (hs : J s.skeleton)
    (hx : x s = .ok a s') : J s'.skeleton ∧ post a := by
  have hres := h s hs
  rw [hx] at hres
  exact hres

theorem error (h : Safe J pos post x) {s s' : State} {f : Fault} (hs : J s.skeleton)
    (hx : x s = .error f s') : J s'.skeleton ∧ f.pos = pos ∧ f.cause.blamesCode = false := by
  have hres := h s hs
  rw [hx] at hres
  exact hres

theorem pure {a : α} (h : post a) : Safe J pos post (Pure.pure a) := fun _ hs => ⟨hs, h⟩

theorem bind {f : α → Exec β} {next : β → Prop} (hx : Safe J pos post x)
    (hf : ∀ a, post a → Safe J pos next (f a)) : Safe J pos next (x >>= f) := by
  intro s hs
  rw [bind_apply]
  cases hres : x s with
  | ok a s' =>
    obtain ⟨hs', ha⟩ := hx.ok hs hres
    exact hf a ha s' hs'
  | error f s' => exact hx.error hs hres

theorem andThen {f : α → Exec β} {next : β → Prop} (hx : Safe J pos post x)
    (hf : ∀ a, Safe J pos next (f a)) : Safe J pos next (x >>= f) :=
  hx.bind fun a _ => hf a

theorem ite {c : Prop} [Decidable c] {y : Exec α} (hx : c → Safe J pos post x)
    (hy : ¬ c → Safe J pos post y) : Safe J pos post (if c then x else y) := by
  split
  next hc => exact hx hc
  next hc => exact hy hc

end Safe

theorem fault_safe {post : α → Prop} {cause : Cause} (h : cause.blamesCode = false) :
    Safe J pos post (fault pos cause) := fun _ hs => ⟨hs, rfl, h⟩

theorem context_safe : Safe J pos (fun _ => True) context := fun _ hs => ⟨hs, trivial⟩

theorem machine_safe : Safe J pos (fun _ => True) machine := fun _ hs => ⟨hs, trivial⟩

theorem store_safe : Safe J pos (fun _ => True) store := fun _ hs => ⟨hs, trivial⟩

theorem create_safe {make : Store → α × Store} (h : ∀ st, (make st).2.closures = st.closures) :
    Safe J pos (fun _ => True) (create make) := by
  intro s hs
  rw [← s.skeleton_withStore h] at hs
  exact ⟨hs, trivial⟩

theorem modifyMachine_safe {f : Machine → Machine} (hp : ∀ m, (f m).program = m.program)
    (hc : ∀ m, (f m).store.closures = m.store.closures) :
    Safe J pos (fun _ => True) (modifyMachine f) := by
  intro s hs
  refine ⟨?_, trivial⟩
  simpa only [State.skeleton, hp, hc] using hs

theorem push_safe (v : Value) : Safe J pos (fun _ => True) (push pos v) := by
  intro s hs
  unfold push
  split
  · exact ⟨hs, trivial⟩
  · exact ⟨hs, rfl, rfl⟩

theorem pop_safe : Safe J pos (fun _ => True) (pop pos) := by
  intro s hs
  unfold pop
  split
  · exact ⟨hs, trivial⟩
  · exact ⟨hs, rfl, rfl⟩

theorem peek_safe : Safe J pos (fun _ => True) (peek pos) := by
  intro s hs
  unfold peek
  split
  · exact ⟨hs, trivial⟩
  · exact ⟨hs, rfl, rfl⟩

theorem require_safe (n : Nat) : Safe J pos (fun _ => True) (require pos n) := by
  intro s hs
  unfold require
  split
  · exact ⟨hs, rfl, rfl⟩
  · exact ⟨hs, trivial⟩

theorem top_safe (n : Nat) : Safe J pos (fun _ => True) (top pos n) := by
  intro s hs
  unfold top
  split
  · exact ⟨hs, rfl, rfl⟩
  · exact ⟨hs, trivial⟩

theorem discard_safe (n : Nat) : Safe J pos (fun _ => True) (discard n) :=
  fun _ hs => ⟨hs, trivial⟩

theorem popN_safe (n : Nat) : Safe J pos (fun _ => True) (popN pos n) :=
  (top_safe n).andThen fun _ => (discard_safe n).andThen fun _ => .pure trivial

theorem frame_safe : Safe J pos (fun _ => True) (frame pos) := by
  intro s hs
  unfold frame
  split
  · exact ⟨hs, trivial⟩
  · exact ⟨hs, rfl, rfl⟩

theorem requireFrame_safe : Safe J pos (fun _ => True) (requireFrame pos) := by
  intro s hs
  unfold requireFrame
  split
  · exact ⟨hs, trivial⟩
  · exact ⟨hs, rfl, rfl⟩

theorem pushNew_safe_of {make : Store → Value × Store}
    (h : ∀ sk st, st.closures = sk.closures → J sk →
      J { sk with closures := (make st).2.closures }) :
    Safe J pos (fun _ => True) (pushNew pos make) := by
  intro s hs
  unfold pushNew
  split
  · exact ⟨h s.skeleton s.machine.store rfl hs, trivial⟩
  · exact ⟨hs, rfl, rfl⟩

theorem pushNew_safe {make : Store → Value × Store}
    (h : ∀ st, (make st).2.closures = st.closures) :
    Safe J pos (fun _ => True) (pushNew pos make) :=
  pushNew_safe_of fun sk st hst hs => by
    rw [h st, hst]
    exact hs

theorem mapM_safe {f : β → Exec α} (hf : ∀ b, Safe J pos (fun _ => True) (f b)) (bs : List β) :
    Safe J pos (fun _ => True) (bs.mapM f) := by
  induction bs with
  | nil => exact .pure trivial
  | cons b bs ih =>
    rw [List.mapM_cons]
    exact (hf b).andThen fun _ => ih.andThen fun _ => .pure trivial

end Exec
end StackVM
