import StackVM.Proofs.Machine.Layers.Floor

/-! # Runs and their floors

While a native waits for a run that it started, the run works on the same stacks as everything
below it. Its floor is what it found: the frames and handlers, and the stack below the height at
which its first frame stands. An instruction of the run keeps to the layer over this floor until
the run ends.
-/
namespace StackVM

/-- The frames on which a run stands that was started in `k`: those it found, and its first own
frame if a native started it. -/
inductive Base.Floor (k : Context) : Base → List Frame → Prop
  | outer : Floor k ⟨k.depth, k.handlerCount, false⟩ k.frames
  | nested {f : Frame} : f.savedSp = k.sp → Floor k ⟨k.depth, k.handlerCount, true⟩ (f :: k.frames)

/-- What is in control of a context. -/
inductive Mode
  | choosing
  | running (base : Base)
  | ended (result : Except Fault Exit)

def Control.mode : Control → Mode
  | .run base _ => .running base
  | .dispatch _ _ | .dispatched _ => .choosing
  | .exited result => .ended result

/-- The context of a run that was started in `k` and stands on the frames `fs`, while it is in
control and when it has ended. -/
def Layer (kept : List Value) (base : Base) (fs : List Frame) (k : Context) :
    Mode → Context → Prop
  | .choosing, _ => False
  | .running base', c => base' = base ∧ c.Over kept fs k.handlers
  | .ended (.error _), c => c.Over kept fs k.handlers
  | .ended (.ok (.halted _)), c => base.nested = false ∧ c.Over kept fs k.handlers
  | .ended (.ok _), c =>
    c.frames = k.frames ∧ c.handlers = k.handlers ∧
      (base.nested = true → kept <:+ c.stack ∧ c.sp ≤ k.sp)

theorem Control.IsChoosing.mode_eq {control : Control} (h : control.IsChoosing) :
    control.mode = .choosing := by
  cases control with
  | run | exited => exact h.elim
  | dispatch | dispatched => rfl

section Floor
variable {kept : List Value} {base : Base} {fs : List Frame} {k c c' : Context} {op : Opcode}
  {n : Nat} {control : Control}

namespace Base.Floor

theorem handlers_eq (h : base.Floor k fs) : base.handlers = k.handlers.length := by
  cases h <;> rfl

theorem frames_eq (h : base.Floor k fs) : base.frames = k.frames.length := by
  cases h <;> rfl

theorem suffix (h : base.Floor k fs) : k.frames <:+ fs := by
  cases h with
  | outer => exact List.suffix_rfl
  | nested => exact List.suffix_cons _ _

end Base.Floor

theorem oldest?_append_cons {α : Type} (xs ys : List α) (y : α) :
    oldest? ys.length (xs ++ y :: ys) = some y := by
  simp [oldest?]

theorem Context.frames_abandon (base : Base) (c : Context) :
    (c.abandon base).frames = keepOldest base.frames c.frames := by
  unfold abandon
  split
  next => rfl
  next hnone =>
    rw [oldest?, List.getElem?_eq_none_iff, List.length_reverse] at hnone
    rw [keepOldest, Nat.sub_eq_zero_of_le hnone, List.drop_zero]

theorem Context.handlers_abandon (base : Base) (c : Context) :
    (c.abandon base).handlers = c.handlers := by
  unfold abandon
  split <;> rfl

theorem Context.stack_abandon (base : Base) {f : Frame} {fs : List Frame}
    (h : f :: fs <:+ c.frames) (hbase : base.frames = fs.length) :
    (c.abandon base).stack = keepOldest f.savedSp c.stack := by
  obtain ⟨new, hnew⟩ := h
  have holdest : oldest? base.frames c.frames = some f := by
    rw [← hnew, hbase, oldest?_append_cons]
  unfold abandon
  rw [holdest]

/-- A run stays over its floor as long as it goes on. -/
theorem Effect.floor_le {ip : Nat} (h : Effect base op n c (.run base ip) c')
    (hfloor : base.Floor k fs) (hc : c.Over kept fs k.handlers) :
    fs.length ≤ c'.depth ∧ k.handlers.length ≤ c'.handlerCount := by
  have hdepth : fs.length ≤ c.depth := hc.frames_suffix.length_le
  have hcount : k.handlers.length ≤ c.handlerCount := hc.handlers_suffix.length_le
  cases h with
  | trade htrade =>
    rw [Context.depth, htrade.frames, Context.handlerCount, htrade.handlers]
    exact ⟨hdepth, hcount⟩
  | install => exact ⟨hdepth, Nat.le_succ_of_le hcount⟩
  | uninstall _ hle => exact ⟨hdepth, hfloor.handlers_eq ▸ hle⟩
  | enter => exact ⟨Nat.le_succ_of_le hdepth, hcount⟩
  | ret _ _ _ hframes hgoes =>
    refine ⟨?_, ?_⟩
    · cases hfloor with
      | outer => exact hframes
      | nested =>
        have hne := fun heq => hgoes ⟨rfl, heq⟩
        exact Nat.lt_of_le_of_ne hframes (Ne.symm hne)
    · rw [← hfloor.handlers_eq] at hcount ⊢
      exact le_length_dropHandlers hcount
  | caught _ htrade _ hhandlers hle =>
    rw [hfloor.handlers_eq] at hle
    have hover : c.handlers = _ := htrade.handlers.symm.trans hhandlers
    obtain ⟨new, -, hframes, -, hdescends⟩ := hc.cons_handlers hover hle
    have hlow := hdescends.low_le
    refine ⟨?_, hle⟩
    simp only [Context.depth, length_keepOldest, htrade.frames] at hframes ⊢
    omega

theorem Effect.layer (h : Effect base op n c control c') (hfloor : base.Floor k fs)
    (hc : c.Over kept fs k.handlers) (hkept : kept.length ≤ k.sp)
    (hn : kept.length ≤ c.sp - n) : Layer kept base fs k control.mode c' := by
  have hrun : ∀ ip, control = .run base ip → Layer kept base fs k control.mode c' := by
    rintro ip rfl
    obtain ⟨hdepth, hcount⟩ := h.floor_le hfloor hc
    exact ⟨rfl, h.over hc hn (Nat.le_of_eq hfloor.handlers_eq) hdepth hcount⟩
  cases h with
  | trade | install | uninstall | enter | ret | caught => exact hrun _ rfl
  | fault => exact hc
  | halt hnested htrade => exact ⟨hnested, htrade.over hc hn⟩
  | @leave v below f frames _ hstack hframes hnested hbase =>
    cases hfloor with
    | outer => cases hnested
    | @nested g hg =>
      obtain ⟨new, hnew, -⟩ := hc.frames
      have hnil : new = [] := by
        have hlength := congrArg List.length (hframes.symm.trans hnew)
        simp only [List.length_cons, List.length_append, hbase, Context.depth] at hlength
        exact List.length_eq_zero_iff.mp (by omega)
      subst hnil
      rw [hframes, List.nil_append] at hnew
      cases hnew
      obtain ⟨handlers, hhandlers, hdescends⟩ := hc.handlers
      have hdepth : c.depth = k.frames.length + 1 := by simp [Context.depth, hframes]
      rw [hdepth] at hdescends
      refine ⟨rfl, ?_, fun _ => ⟨?_, ?_⟩⟩
      · rw [hhandlers, hdepth]
        refine (dropHandlers_floor hdescends (Nat.le_refl _)).trans (dropHandlers_eq_self ?_)
        intro e rest heq hle
        simp only [heq, List.length_cons] at hle
        omega
      · refine suffix_keepOldest ?_ (hg ▸ hkept)
        refine List.suffix_of_suffix_length_le hc.stack (hstack ▸ List.suffix_cons v below) ?_
        simpa [Context.sp, hstack] using hn
      · simp only [Context.sp, length_keepOldest] at hg ⊢
        omega
  | @escape _ _ _ _ t hop htrade hhandlers =>
    have ht := htrade.over hc hn
    have heq : t.handlers = k.handlers := by
      rw [hfloor.handlers_eq] at hhandlers
      exact (ht.handlers_suffix.eq_of_length_le hhandlers).symm
    refine ⟨?_, ?_, ?_⟩
    · rw [Context.frames_abandon]
      exact keepOldest_eq_of_suffix (hfloor.suffix.trans ht.frames_suffix) hfloor.frames_eq.symm
    · rw [Context.handlers_abandon, heq]
    · intro hnested
      cases hfloor with
      | outer => cases hnested
      | nested hf =>
        have hstack :=
          Context.stack_abandon ⟨k.depth, k.handlerCount, true⟩ ht.frames_suffix rfl
        rw [Context.sp, hstack, length_keepOldest, hf]
        exact ⟨suffix_keepOldest ht.stack hkept, Nat.min_le_left _ _⟩

end Floor

end StackVM
