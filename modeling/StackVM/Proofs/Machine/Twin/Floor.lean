import StackVM.Proofs.Machine.Shift.Instructions

/-! # Frames and handlers over a floor

Going back to older frames and handlers, or to a handler that catches, does the same to the upper
part of a context over every floor.
-/
namespace StackVM

section Floor
variable {floor r : Context}

theorem keepOldest_map {α β : Type} (f : α → β) (n : Nat) (xs : List α) :
    keepOldest n (xs.map f) = (keepOldest n xs).map f := by
  simp only [keepOldest, List.length_map, List.map_drop]

theorem keepOldest_add_append {α : Type} (n : Nat) (xs ys : List α) :
    keepOldest (n + ys.length) (xs ++ ys) = keepOldest n xs ++ ys := by
  rw [keepOldest_append (Nat.le_add_left _ _), Nat.add_sub_cancel]

theorem oldest?_add_append {α : Type} (n : Nat) (xs ys : List α) :
    oldest? (n + ys.length) (xs ++ ys) = oldest? n xs := by
  unfold oldest?
  rw [List.reverse_append, List.getElem?_append_right (by simp), List.length_reverse,
    Nat.add_sub_cancel]

theorem dropHandlers_on {owned depth : Nat} (hs : List Handler)
    (hfloor : Exec.dropHandlers owned (depth + floor.depth) floor.handlers = floor.handlers) :
    Exec.dropHandlers owned (depth + floor.depth)
        (hs.map (Handler.lift floor) ++ floor.handlers) =
      (Exec.dropHandlers (owned - floor.handlerCount) depth hs).map (Handler.lift floor) ++
        floor.handlers := by
  induction hs with
  | nil => exact hfloor
  | cons h hs ih =>
    have hiff : (owned < (((h :: hs).map (Handler.lift floor)) ++ floor.handlers).length ∧
        depth + floor.depth ≤ (h.lift floor).frames) ↔
        (owned - floor.handlerCount < (h :: hs).length ∧ depth ≤ h.frames) := by
      simp only [List.length_append, List.length_map, List.length_cons, Handler.lift,
        Context.handlerCount]
      omega
    rw [List.map_cons, List.cons_append] at hiff ⊢
    rw [Exec.dropHandlers, Exec.dropHandlers]
    by_cases hdrop : owned - floor.handlerCount < (h :: hs).length ∧ depth ≤ h.frames
    · rw [if_pos (hiff.mpr hdrop), if_pos hdrop, ih]
    · rw [if_neg (fun hboth => hdrop (hiff.mp hboth)), if_neg hdrop]
      rfl

theorem oldest?_on (n : Nat) (r floor : Context) :
    oldest? (n + floor.depth) (r.on floor).frames =
      (oldest? n r.frames).map (Frame.lift floor.sp) := by
  refine (oldest?_add_append n _ _).trans ?_
  simp only [oldest?, ← List.map_reverse, List.getElem?_map]

theorem Context.abandon_on {base : Base} (h : floor.depth ≤ base.frames) (r : Context) :
    (r.on floor).abandon base =
      (r.abandon { base with frames := base.frames - floor.depth }).on floor := by
  obtain ⟨n, hn⟩ := Nat.exists_eq_add_of_le' h
  have hframes : base.frames - floor.depth = n := by omega
  have holdest : oldest? base.frames (r.on floor).frames =
      (oldest? n r.frames).map (Frame.lift floor.sp) := hn ▸ oldest?_on n r floor
  have hkeep : keepOldest base.frames (r.on floor).frames =
      (keepOldest n r.frames).map (Frame.lift floor.sp) ++ floor.frames := by
    rw [hn]
    exact (keepOldest_add_append n _ _).trans (by rw [keepOldest_map])
  unfold Context.abandon
  dsimp only
  rw [holdest, hframes]
  cases oldest? n r.frames with
  | none => rfl
  | some f =>
    have hstack : keepOldest (f.savedSp + floor.sp) (r.on floor).stack =
        keepOldest f.savedSp r.stack ++ floor.stack := keepOldest_add_append _ _ _
    simp only [Option.map_some, Frame.lift, hkeep, hstack]
    rfl

theorem Context.caught_on {h : Handler} {hs : List Handler} (hr : r.handlers = h :: hs)
    (v : Value) (floor : Context) :
    (⟨v :: keepOldest (h.lift floor).sp (r.on floor).stack,
      keepOldest (h.lift floor).frames (r.on floor).frames, (r.on floor).handlers.tail⟩ : Context) =
      Context.on ⟨v :: keepOldest h.sp r.stack, keepOldest h.frames r.frames, hs⟩ floor := by
  have hstack := keepOldest_add_append h.sp r.stack floor.stack
  have hframes := keepOldest_add_append h.frames (r.frames.map (Frame.lift floor.sp)) floor.frames
  rw [keepOldest_map] at hframes
  simp only [Context.on, hr, List.map_cons, List.cons_append, List.tail_cons]
  exact Context.mk.injEq .. ▸ ⟨congrArg (v :: ·) hstack, hframes, rfl⟩

theorem restore_on {base : Base} {savedSp : Nat} {m : Machine} (hframes : floor.depth ≤ base.frames)
    (hhandlers : floor.handlerCount ≤ base.handlers) (r : Context) :
    Config.restore base (savedSp + floor.sp) ⟨m, r.on floor⟩ =
      ⟨m, (Config.restore ⟨base.frames - floor.depth, base.handlers - floor.handlerCount, true⟩
        savedSp ⟨m, r⟩).context.on floor⟩ := by
  obtain ⟨n, hn⟩ := Nat.exists_eq_add_of_le' hframes
  obtain ⟨k, hk⟩ := Nat.exists_eq_add_of_le' hhandlers
  have hframes' : base.frames - floor.depth = n := by omega
  have hhandlers' : base.handlers - floor.handlerCount = k := by omega
  unfold Config.restore
  dsimp only
  rw [hframes', hhandlers', hn, hk]
  simp only [Context.on, State.mk.injEq, true_and, Context.mk.injEq]
  refine ⟨keepOldest_add_append _ _ _, ?_, ?_⟩
  · exact (keepOldest_add_append n _ _).trans (by rw [keepOldest_map])
  · exact (keepOldest_add_append k _ _).trans (by rw [keepOldest_map])

end Floor

end StackVM
