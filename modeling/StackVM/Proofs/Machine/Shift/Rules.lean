import StackVM.Proofs.Code.Codec
import StackVM.Proofs.Machine.Layers.Steps

/-! # Computations on shifted ground

The same computation is compared in two states that differ in what lies below and behind: the
contexts have the same upper part over different floors, and one program goes on where the other
ends. Heights of the stack that frames and handlers hold are shifted along. As long as a computation
looks at no value of the floors, it does in both states the same to the upper part; only the room on
the stack may give out earlier over the higher floor.
-/
namespace StackVM

/-- The frame of a call made this much higher on the stack. -/
def Frame.lift (height : Nat) (f : Frame) : Frame := { f with savedSp := f.savedSp + height }

/-- A handler installed over a floor. -/
def Handler.lift (floor : Context) (h : Handler) : Handler :=
  { h with frames := h.frames + floor.depth, sp := h.sp + floor.sp }

/-- What code sees of the frame it runs in. -/
def Frame.binding (f : Frame) : LocalsRef × List LocalsRef := (f.locals, f.scope)

/-- One context on top of another. -/
def Context.on (c floor : Context) : Context where
  stack := c.stack ++ floor.stack
  frames := c.frames.map (Frame.lift floor.sp) ++ floor.frames
  handlers := c.handlers.map (Handler.lift floor) ++ floor.handlers

namespace Context
variable (c floor : Context)

@[simp] theorem sp_on : (c.on floor).sp = c.sp + floor.sp := List.length_append

@[simp] theorem depth_on : (c.on floor).depth = c.depth + floor.depth := by
  simp [depth, on]

@[simp] theorem handlerCount_on :
    (c.on floor).handlerCount = c.handlerCount + floor.handlerCount := by
  simp [handlerCount, on]

theorem on_new : c.on .new = c := by
  have hframe : Frame.lift Context.new.sp = id := rfl
  have hhandler : Handler.lift .new = id := rfl
  simp only [on, hframe, hhandler, List.map_id]
  simp [new]

end Context

theorem HoldsAt.append_code {bytes code : Array UInt8} {pos : Nat} {l : List UInt8}
    (h : HoldsAt bytes pos l) : HoldsAt (bytes ++ code) pos l := by
  unfold HoldsAt at *
  rw [Array.toList_append, List.drop_append]
  exact h.trans (List.prefix_append _ _)

namespace Program
variable {p q : Program} {pos : Nat}

@[simp] theorem size_append (p : Program) (code : Array UInt8) :
    (p.append code).size = p.size + code.size := Array.size_append

theorem byte?_append {byte : UInt8} (h : p.byte? pos = some byte) (code : Array UInt8) :
    (p.append code).byte? pos = some byte := by
  have hlt := (Array.getElem?_eq_some_iff.mp h).1
  exact (Array.getElem?_append_left hlt).trans h

theorem decodeAt_append {found : Instr × Nat} (h : p.decodeAt pos = .ok found)
    (code : Array UInt8) : (p.append code).decodeAt pos = .ok found := by
  obtain ⟨henc, hnext, hat⟩ := Instr.decode_eq_ok_iff_holdsAt.mp h
  exact Instr.decode_eq_ok_iff_holdsAt.mpr ⟨henc, hnext, hat.append_code⟩

theorem writeWord_append {value : UInt16} (h : p.writeWord pos value = .ok q)
    (code : Array UInt8) : (p.append code).writeWord pos value = .ok (q.append code) := by
  unfold writeWord at h ⊢
  split at h
  next hend =>
    cases h
    have hhigh : pos + 1 < p.bytes.size := hend
    rw [if_pos (by rw [size_append]; omega)]
    simp only [append]
    rw [Array.setIfInBounds_append_left (Nat.lt_of_succ_lt hhigh),
      Array.setIfInBounds_append_left (by simpa using hhigh)]
  next => cases h

end Program

theorem Exec.patchable_append {p : Program} {address : Nat} (h : patchable p address = true)
    (code : Array UInt8) : patchable (p.append code) address = true := by
  obtain ⟨site, op, hsite, hbyte, hglobal, hend⟩ := patchable_iff.mp h
  refine patchable_iff.mpr ⟨site, op, hsite, p.byte?_append hbyte code, hglobal, ?_⟩
  rw [Program.size_append]
  omega

/-- A machine with further code behind its program. -/
def Machine.extend (m : Machine) (code : Array UInt8) : Machine :=
  { m with program := m.program.append code }

theorem Machine.extend_empty (m : Machine) : m.extend #[] = m := by
  simp [extend, Program.append]

/-- Two floors that look alike to the code above them, and further code for the second one. -/
structure Shift where
  low : Context
  high : Context
  added : Array UInt8
  runs : Option (Base × Base)
  depth : high.depth = low.depth
  handlerCount : high.handlerCount = low.handlerCount
  bindings : high.frames.map Frame.binding = low.frames.map Frame.binding

namespace Shift

def here (σ : Shift) (m : Machine) (r : Context) : State := ⟨m, r.on σ.low⟩

def there (σ : Shift) (m : Machine) (r : Context) : State := ⟨m.extend σ.added, r.on σ.high⟩

@[simp] theorem context_here (σ : Shift) (m : Machine) (r : Context) :
    (σ.here m r).context = r.on σ.low := rfl

@[simp] theorem context_there (σ : Shift) (m : Machine) (r : Context) :
    (σ.there m r).context = r.on σ.high := rfl

/-- The newest `n` values are no part of the floors. Empty floors have none. -/
def Within (σ : Shift) (n : Nat) (r : Context) : Prop :=
  n ≤ r.sp ∨ (σ.low.stack = [] ∧ σ.high.stack = [])

/-- The values fit over the first floor, but not over the second one. -/
def Overflows (σ : Shift) (r : Context) : Prop :=
  r.sp + σ.low.sp ≤ Capacity.stack ∧ Capacity.stack < r.sp + σ.high.sp

variable {σ : Shift} {n n' k : Nat} {r r' : Context}

theorem Within.zero (σ : Shift) (r : Context) : σ.Within 0 r := .inl (Nat.zero_le _)

theorem Within.mono (h : σ.Within n r) (hr : r.sp ≤ r'.sp + k) (hn : n' + k ≤ n) :
    σ.Within n' r' := h.imp_left fun hle => by omega

theorem Within.le_sp (h : σ.Within n r) (hn : n ≤ r.sp + σ.low.sp) : n ≤ r.sp := by
  rcases h with hle | ⟨hlow, -⟩
  · exact hle
  · simpa [Context.sp, hlow] using hn

theorem Within.drop (h : σ.Within n r) :
    (r.on σ.low).stack.drop n = r.stack.drop n ++ σ.low.stack ∧
      (r.on σ.high).stack.drop n = r.stack.drop n ++ σ.high.stack := by
  rcases h with hle | ⟨hlow, hhigh⟩
  · exact ⟨List.drop_append_of_le_length hle, List.drop_append_of_le_length hle⟩
  · simp [Context.on, hlow, hhigh]

theorem take_on (h : n ≤ r.sp) (floor : Context) : (r.on floor).stack.take n = r.stack.take n :=
  List.take_append_of_le_length h

theorem bindings_on (σ : Shift) (r : Context) :
    (r.on σ.high).frames.map Frame.binding = (r.on σ.low).frames.map Frame.binding := by
  simp only [Context.on, List.map_append, List.map_map, σ.bindings]
  rfl

end Shift

/-- How many of the newest values an instruction looks at: those it takes, and one that is
copied. -/
def Instr.reach : Instr → Nat
  | ⟨.dup, _⟩ => 1
  | i => i.operands

/-- The run goes on with some instruction. -/
def Step.Goes : Step → Prop
  | .next | .jump _ => True
  | _ => False

namespace Exec
variable {α β : Type} {σ : Shift} {n i k j l pos next : Nat} {x y : Exec α} {f g : α → Exec β}
  {z w : Exec Step}

/-- If `x` has a result here, then `y` has the same one there and does the same above the floor. It
needs the newest `n` values and takes at most `k`. -/
def Mirrors (σ : Shift) (n k : Nat) (x y : Exec α) : Prop :=
  ∀ m r a s, σ.Within n r → x (σ.here m r) = .ok a s →
    ∃ m' r', s = σ.here m' r' ∧ y (σ.there m r) = .ok a (σ.there m' r') ∧ r.sp ≤ r'.sp + k

/-- The same of an instruction, but there the stack may overflow at the end. -/
def Follows (σ : Shift) (n : Nat) (z w : Exec Step) : Prop :=
  ∀ m r step s, σ.Within n r → z (σ.here m r) = .ok step s →
    ∃ m' r', s = σ.here m' r' ∧ (w (σ.there m r) = .ok step (σ.there m' r') ∨
      step.Goes ∧ σ.Overflows r' ∧ ∃ e t, w (σ.there m r) = .error e t)

theorem Mirrors.pure (a : α) : Mirrors σ 0 0 (Pure.pure a) (Pure.pure a) := by
  rintro m r b s - hok
  cases hok
  exact ⟨m, r, rfl, rfl, Nat.le_refl _⟩

theorem Mirrors.fault {cause : Cause} : Mirrors σ n k (Exec.fault pos cause) y := by
  rintro m r b s - hok
  cases hok

theorem Mirrors.bind (hx : Mirrors σ n k x y) (hf : ∀ a, Mirrors σ i j (f a) (g a))
    (hn : i + k ≤ n) (hl : k + j ≤ l) : Mirrors σ n l (x >>= f) (y >>= g) := by
  intro m r b s hr hok
  rw [bind_apply] at hok
  cases hres : x (σ.here m r) with
  | error e t =>
    rw [hres] at hok
    cases hok
  | ok a t =>
    rw [hres] at hok
    obtain ⟨m₁, r₁, rfl, hy, hle⟩ := hx m r a t hr hres
    obtain ⟨m', r', hs, hg, hle'⟩ := hf a m₁ r₁ b s (hr.mono hle hn) hok
    refine ⟨m', r', hs, ?_, by omega⟩
    rw [bind_apply, hy]
    exact hg

theorem Mirrors.mono (h : Mirrors σ n k x y) (hn : n ≤ i) : Mirrors σ i k x y :=
  fun m r a s hr hok => h m r a s (hr.imp_left (Nat.le_trans hn)) hok

theorem Mirrors.follows (h : Mirrors σ n k z w) : Follows σ n z w := by
  intro m r step s hr hok
  obtain ⟨m', r', hs, hw, -⟩ := h m r step s hr hok
  exact ⟨m', r', hs, .inl hw⟩

theorem Follows.bind {f g : α → Exec Step} (hx : Mirrors σ n k x y)
    (hf : ∀ a, Follows σ i (f a) (g a)) (hn : i + k ≤ n) :
    Follows σ n (x >>= f) (y >>= g) := by
  intro m r step s hr hok
  rw [bind_apply] at hok
  cases hres : x (σ.here m r) with
  | error e t =>
    rw [hres] at hok
    cases hok
  | ok a t =>
    rw [hres] at hok
    obtain ⟨m₁, r₁, rfl, hy, hle⟩ := hx m r a t hr hres
    obtain ⟨m', r', hs, hg⟩ := hf a m₁ r₁ step s (hr.mono hle hn) hok
    refine ⟨m', r', hs, ?_⟩
    rw [bind_apply, hy]
    exact hg

theorem Mirrors.after {f g : α → Exec β} (hx : Mirrors σ 0 0 x y)
    (hf : ∀ a, Mirrors σ n k (f a) (g a)) : Mirrors σ n k (x >>= f) (y >>= g) :=
  (hx.mono (Nat.zero_le n)).bind hf (Nat.le_refl n) (by omega)

theorem Follows.after {f g : α → Exec Step} (hx : Mirrors σ 0 0 x y)
    (hf : ∀ a, Follows σ n (f a) (g a)) : Follows σ n (x >>= f) (y >>= g) :=
  .bind (hx.mono (Nat.zero_le n)) hf (Nat.le_refl n)

theorem Follows.fault {cause : Cause} : Follows σ n (Exec.fault pos cause) w :=
  (Mirrors.fault (k := 0)).follows

theorem Follows.ite {c : Prop} [Decidable c] {z' w' : Exec Step} (hz : c → Follows σ n z w)
    (hw : ¬ c → Follows σ n z' w') : Follows σ n (if c then z else z') (if c then w else w') := by
  by_cases hc : c
  · rw [if_pos hc, if_pos hc]
    exact hz hc
  · rw [if_neg hc, if_neg hc]
    exact hw hc

end Exec
end StackVM
