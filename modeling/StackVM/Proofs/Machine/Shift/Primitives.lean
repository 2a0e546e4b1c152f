import StackVM.Proofs.Machine.Shift.Rules

/-! # Primitives on shifted ground

What instructions are made of looks at the upper part of the context and changes it in the same way
over both floors.
-/
namespace StackVM
namespace Exec
variable {α β : Type} {σ : Shift} {n k j pos : Nat} {f g : α → Exec β}

theorem Mirrors.machine {f g : Machine → Exec β}
    (h : ∀ m, Mirrors σ n k (f m) (g (m.extend σ.added))) :
    Mirrors σ n k (Exec.machine >>= f) (Exec.machine >>= g) :=
  fun m r => h m m r

theorem Follows.machine {f g : Machine → Exec Step}
    (h : ∀ m, Follows σ n (f m) (g (m.extend σ.added))) :
    Follows σ n (Exec.machine >>= f) (Exec.machine >>= g) :=
  fun m r => h m m r

theorem Mirrors.store {f g : Store → Exec β} (h : ∀ st, Mirrors σ n k (f st) (g st)) :
    Mirrors σ n k (Exec.store >>= f) (Exec.store >>= g) :=
  fun m r => h m.store m r

theorem Follows.store {f g : Store → Exec Step} (h : ∀ st, Follows σ n (f st) (g st)) :
    Follows σ n (Exec.store >>= f) (Exec.store >>= g) :=
  fun m r => h m.store m r

theorem Mirrors.context {f g : Context → Exec β}
    (h : ∀ r : Context, Mirrors σ n k (f (r.on σ.low)) (g (r.on σ.high))) :
    Mirrors σ n k (Exec.context >>= f) (Exec.context >>= g) :=
  fun m r => h r m r

theorem Follows.context {f g : Context → Exec Step}
    (h : ∀ r : Context, Follows σ n (f (r.on σ.low)) (g (r.on σ.high))) :
    Follows σ n (Exec.context >>= f) (Exec.context >>= g) :=
  fun m r => h r m r

theorem Mirrors.frame {f g : Frame → Exec β}
    (h : ∀ e e' : Frame, e'.binding = e.binding → Mirrors σ n k (f e) (g e')) :
    Mirrors σ n k (Exec.frame pos >>= f) (Exec.frame pos >>= g) := by
  intro m r a s hr hok
  have hbindings := σ.bindings_on r
  simp only [bind_apply, Exec.frame, Shift.here, Shift.there] at hok ⊢
  cases hlow : (r.on σ.low).frames with
  | nil =>
    rw [hlow] at hok
    cases hok
  | cons e es =>
    cases hhigh : (r.on σ.high).frames with
    | nil => simp [hlow, hhigh] at hbindings
    | cons e' es' =>
      rw [hlow] at hok
      rw [hlow, hhigh, List.map_cons, List.map_cons, List.cons.injEq] at hbindings
      exact h e e' hbindings.1 m r a s hr hok

theorem require_mirrors : Mirrors σ n 0 (require pos n) (require pos n) := by
  intro m r a s hr hok
  simp only [require, Shift.here, Shift.there, Context.sp_on] at hok ⊢
  by_cases hlt : r.sp + σ.low.sp < n
  · rw [if_pos hlt] at hok
    cases hok
  · rw [if_neg hlt] at hok
    cases hok
    have hle := hr.le_sp (Nat.le_of_not_lt hlt)
    rw [if_neg (by omega)]
    exact ⟨m, r, rfl, rfl, Nat.le_refl _⟩

theorem top_mirrors : Mirrors σ n 0 (top pos n) (top pos n) := by
  intro m r a s hr hok
  simp only [top, Shift.here, Shift.there, Context.sp_on] at hok ⊢
  by_cases hlt : r.sp + σ.low.sp < n
  · rw [if_pos hlt] at hok
    cases hok
  · have hle := hr.le_sp (Nat.le_of_not_lt hlt)
    rw [if_neg hlt, Shift.take_on hle] at hok
    cases hok
    rw [if_neg (by omega), Shift.take_on hle]
    exact ⟨m, r, rfl, rfl, Nat.le_refl _⟩

theorem peek_mirrors : Mirrors σ 1 0 (peek pos) (peek pos) := by
  intro m r a s hr hok
  have hle : 1 ≤ r.sp := hr.le_sp (by simpa [Shift.here] using sp_pos_of_peek hok)
  obtain ⟨stack, frames, handlers⟩ := r
  obtain ⟨v, above, rfl⟩ := List.exists_cons_of_length_pos hle
  cases hok
  exact ⟨m, _, rfl, rfl, Nat.le_refl _⟩

theorem pop_mirrors : Mirrors σ 1 1 (pop pos) (pop pos) := by
  intro m r a s hr hok
  have hsp : 1 ≤ (σ.here m r).context.sp := (pop_trades _ _ hok).1.enough
  have hle : 1 ≤ r.sp := hr.le_sp (by simpa [Shift.here] using hsp)
  obtain ⟨stack, frames, handlers⟩ := r
  obtain ⟨v, above, rfl⟩ := List.exists_cons_of_length_pos hle
  cases hok
  exact ⟨m, ⟨above, frames, handlers⟩, rfl, rfl, Nat.le_refl _⟩

theorem discard_mirrors (n : Nat) : Mirrors σ n n (discard n) (discard n) := by
  intro m r a s hr hok
  cases hok
  refine ⟨m, { r with stack := r.stack.drop n }, ?_, ?_, ?_⟩
  · simp only [Shift.here, hr.drop.1]
    rfl
  · simp only [discard, Shift.there, hr.drop.2]
    rfl
  · simp only [Context.sp, List.length_drop]
    omega

theorem popN_mirrors (n : Nat) : Mirrors σ n n (popN pos n) (popN pos n) := by
  refine top_mirrors.bind (j := n) (fun values => ?_) (Nat.le_refl n) (by omega)
  exact (discard_mirrors n).bind (fun _ => .pure values) (by omega) (Nat.le_refl n)

theorem create_mirrors (make : Store → α × Store) : Mirrors σ 0 0 (create make) (create make) := by
  rintro m r a s - hok
  cases hok
  exact ⟨_, r, rfl, rfl, Nat.le_refl _⟩

theorem modifyMachine_mirrors {change : Machine → Machine}
    (h : ∀ m, change (m.extend σ.added) = (change m).extend σ.added) :
    Mirrors σ 0 0 (modifyMachine change) (modifyMachine change) := by
  rintro m r a s - hok
  cases hok
  refine ⟨change m, r, rfl, ?_, Nat.le_refl _⟩
  simp only [modifyMachine, Shift.there, h]

theorem resolveName_mirrors (name : String) :
    Mirrors σ 0 0 (resolveName name) (resolveName name) := by
  rintro m r a s - hok
  cases hok
  exact ⟨_, r, rfl, rfl, Nat.le_refl _⟩

theorem requireFrame_mirrors : Mirrors σ 0 0 (requireFrame pos) (requireFrame pos) := by
  rintro m r a s - hok
  simp only [requireFrame, Shift.here, Shift.there, Context.depth_on, σ.depth] at hok ⊢
  by_cases hroom : r.depth + σ.low.depth < Capacity.frames
  · rw [if_pos hroom] at hok ⊢
    cases hok
    exact ⟨m, r, rfl, rfl, Nat.le_refl _⟩
  · rw [if_neg hroom] at hok
    cases hok

theorem pushHandler_mirrors (h : Handler) :
    Mirrors σ 0 0 (pushHandler pos (h.lift σ.low)) (pushHandler pos (h.lift σ.high)) := by
  rintro m r a s - hok
  simp only [pushHandler, Shift.here, Shift.there, Context.handlerCount_on, σ.handlerCount]
    at hok ⊢
  by_cases hroom : r.handlerCount + σ.low.handlerCount < Capacity.handlers
  · rw [if_pos hroom] at hok ⊢
    cases hok
    exact ⟨m, { r with handlers := h :: r.handlers }, rfl, rfl, Nat.le_refl _⟩
  · rw [if_neg hroom] at hok
    cases hok

theorem pushFrame_mirrors (c : Closure) (args : List Value) (returnIp height : Nat) :
    Mirrors σ 0 0 (pushFrame pos c args returnIp (height + σ.low.sp))
      (pushFrame pos c args returnIp (height + σ.high.sp)) := by
  refine requireFrame_mirrors.after fun _ => (create_mirrors _).after fun slots => ?_
  rintro m r a s - hok
  cases hok
  exact ⟨m, { r with frames := ⟨returnIp, height, slots, c.scope⟩ :: r.frames }, rfl, rfl,
    Nat.le_refl _⟩

theorem pushNew_follows (make : Store → Value × Store) (step : Step) (hstep : step.Goes) :
    Follows σ 0 (pushNew pos make >>= fun _ => return step)
      (pushNew pos make >>= fun _ => return step) := by
  rintro m r a s - hok
  simp only [bind_apply, pushNew, Shift.here, Shift.there, Context.sp_on] at hok ⊢
  by_cases hroom : r.sp + σ.low.sp < Capacity.stack
  · rw [if_pos hroom] at hok
    cases hok
    refine ⟨{ m with store := (make m.store).2 },
      { r with stack := (make m.store).1 :: r.stack }, rfl, ?_⟩
    by_cases hthere : r.sp + σ.high.sp < Capacity.stack
    · rw [if_pos hthere]
      exact .inl rfl
    · rw [if_neg hthere]
      refine .inr ⟨hstep, ?_, _, _, rfl⟩
      unfold Shift.Overflows
      simp only [Context.sp, List.length_cons] at *
      omega
  · rw [if_neg hroom] at hok
    cases hok

theorem push_follows (v : Value) (step : Step) (hstep : step.Goes) :
    Follows σ 0 (push pos v >>= fun _ => return step) (push pos v >>= fun _ => return step) :=
  pushNew_follows (fun st => (v, st)) step hstep

end Exec
end StackVM
