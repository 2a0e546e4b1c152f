import StackVM.Proofs.Machine.Effect.Natives

/-! # Contexts over a floor

A context lies over older frames and handlers if these are still at the bottom and what was pushed
since does not reach below them: the handlers since then were installed at the depths of newer
frames, and no newer frame goes back to a height of the stack that is below the floor.
-/
namespace StackVM

/-- The handlers, newest first, were installed at depths that go down from `depth` to `low`, and
none of them below `height`. -/
inductive Descends (low height : Nat) : Nat → List Handler → Prop
  | nil {depth : Nat} : low ≤ depth → Descends low height depth []
  | cons {depth : Nat} {h : Handler} {hs : List Handler} :
      h.frames ≤ depth → height ≤ h.sp → Descends low height h.frames hs →
      Descends low height depth (h :: hs)

namespace Descends
variable {low height depth depth' : Nat} {hs : List Handler}

theorem low_le (h : Descends low height depth hs) : low ≤ depth := by
  induction h with
  | nil hle => exact hle
  | cons hle _ _ ih => exact Nat.le_trans ih hle

theorem mono (h : Descends low height depth hs) (hle : depth ≤ depth') :
    Descends low height depth' hs := by
  cases h with
  | nil hlow => exact .nil (Nat.le_trans hlow hle)
  | cons hframes hsp hrest => exact .cons (Nat.le_trans hframes hle) hsp hrest

end Descends

section DropHandlers
variable {owned depth low height : Nat} {new hs : List Handler}

theorem dropHandlers_suffix (owned depth : Nat) (hs : List Handler) :
    Exec.dropHandlers owned depth hs <:+ hs := by
  induction hs with
  | nil => exact List.suffix_rfl
  | cons h rest ih =>
    unfold Exec.dropHandlers
    split
    · exact ih.trans (List.suffix_cons h rest)
    · exact List.suffix_rfl

theorem le_length_dropHandlers (h : owned ≤ hs.length) :
    owned ≤ (Exec.dropHandlers owned depth hs).length := by
  induction hs with
  | nil => exact h
  | cons e rest ih =>
    unfold Exec.dropHandlers
    split
    next hdrop => exact ih (Nat.le_of_lt_succ hdrop.1)
    next => exact h

theorem dropHandlers_append (h : Descends low height depth new) (hlow : low < depth)
    (howned : owned ≤ hs.length)
    (hkeep : hs.length ≤ (Exec.dropHandlers owned depth (new ++ hs)).length) :
    ∃ new', Exec.dropHandlers owned depth (new ++ hs) = new' ++ hs ∧
      Descends low height (depth - 1) new' := by
  induction new with
  | nil =>
    have heq := (dropHandlers_suffix owned depth hs).eq_of_length_le hkeep
    exact ⟨[], heq, .nil (by omega)⟩
  | cons e new ih =>
    cases h with
    | cons hframes hsp hrest =>
      rw [List.cons_append, Exec.dropHandlers] at hkeep ⊢
      have hlength : owned < (e :: (new ++ hs)).length := by
        simp only [List.length_cons, List.length_append]
        omega
      by_cases hdrop : depth ≤ e.frames
      · rw [if_pos ⟨hlength, hdrop⟩] at hkeep ⊢
        exact ih (hrest.mono hframes) hkeep
      · rw [if_neg fun hboth => hdrop hboth.2]
        exact ⟨e :: new, rfl, .cons (by omega) hsp hrest⟩

theorem le_length_dropHandlers_append (new : List Handler)
    (h : Exec.dropHandlers owned depth hs = hs) :
    hs.length ≤ (Exec.dropHandlers owned depth (new ++ hs)).length := by
  induction new with
  | nil => rw [List.nil_append, h]
  | cons e new ih =>
    rw [List.cons_append, Exec.dropHandlers]
    split
    · exact ih
    · simp only [List.length_cons, List.length_append]
      omega

/-- The return of the frame at the floor drops all handlers above it. -/
theorem dropHandlers_floor (h : Descends depth height depth new) (howned : owned ≤ hs.length) :
    Exec.dropHandlers owned depth (new ++ hs) = Exec.dropHandlers owned depth hs := by
  induction new with
  | nil => rfl
  | cons e new ih =>
    cases h with
    | cons hframes _ hrest =>
      have hlength : owned < (e :: (new ++ hs)).length := by
        simp only [List.length_cons, List.length_append]
        omega
      rw [List.cons_append, Exec.dropHandlers, if_pos ⟨hlength, hrest.low_le⟩]
      exact ih (hrest.mono hframes)

theorem dropHandlers_eq_self
    (h : ∀ e rest, hs = e :: rest → owned ≤ rest.length → e.frames < depth) :
    Exec.dropHandlers owned depth hs = hs := by
  cases hs with
  | nil => rfl
  | cons e rest =>
    refine if_neg ?_
    rintro ⟨hlength, hdepth⟩
    exact Nat.not_lt_of_le hdepth (h e rest rfl (Nat.le_of_lt_succ hlength))

end DropHandlers

theorem keepOldest_append {α : Type} {n : Nat} {xs ys : List α} (h : ys.length ≤ n) :
    keepOldest n (xs ++ ys) = keepOldest (n - ys.length) xs ++ ys := by
  have hle : (xs ++ ys).length - n ≤ xs.length := by
    rw [List.length_append]
    omega
  rw [keepOldest, List.drop_append_of_le_length hle, keepOldest, List.length_append]
  congr 2
  omega

/-- The frames and handlers are at the bottom of the context, the values at the bottom of its
stack, and no frame or handler above reaches below these values. -/
structure Context.Over (kept : List Value) (fs : List Frame) (hs : List Handler) (c : Context) :
    Prop where
  stack : kept <:+ c.stack
  frames : ∃ new, c.frames = new ++ fs ∧ ∀ f ∈ new, kept.length ≤ f.savedSp
  handlers : ∃ new, c.handlers = new ++ hs ∧ Descends fs.length kept.length c.depth new

section Over
variable {kept : List Value} {fs : List Frame} {hs : List Handler} {base : Base} {op : Opcode}
  {n : Nat} {c c' : Context} {control : Control}

theorem Context.Over.bottom (hstack : kept <:+ c.stack) (hframes : c.frames = fs)
    (hhandlers : c.handlers = hs) : c.Over kept fs hs := by
  subst hframes hhandlers
  exact ⟨hstack, ⟨[], rfl, by simp⟩, ⟨[], rfl, .nil (Nat.le_refl _)⟩⟩

theorem Context.Over.frames_suffix (h : c.Over kept fs hs) : fs <:+ c.frames := by
  obtain ⟨new, hnew, -⟩ := h.frames
  exact ⟨new, hnew.symm⟩

theorem Context.Over.handlers_suffix (h : c.Over kept fs hs) : hs <:+ c.handlers := by
  obtain ⟨new, hnew, -⟩ := h.handlers
  exact ⟨new, hnew.symm⟩

theorem Context.Over.of_like (h : c.Over kept fs hs) (hstack : kept <:+ c'.stack)
    (hframes : c'.frames = c.frames) (hhandlers : c'.handlers = c.handlers) :
    c'.Over kept fs hs := by
  refine ⟨hstack, hframes ▸ h.frames, ?_⟩
  rw [hhandlers, Context.depth, hframes]
  exact h.handlers

theorem Context.Traded.suffix (h : c.Traded n c') (hc : kept <:+ c.stack)
    (hn : kept.length ≤ c.sp - n) : kept <:+ c'.stack := by
  obtain ⟨pushed, hpushed⟩ := h.stack
  rw [hpushed]
  refine List.IsSuffix.trans ?_ (List.suffix_append pushed _)
  refine List.suffix_of_suffix_length_le hc (List.drop_suffix n c.stack) ?_
  rw [List.length_drop]
  exact hn

theorem Context.Traded.over (h : c.Traded n c') (hc : c.Over kept fs hs)
    (hn : kept.length ≤ c.sp - n) : c'.Over kept fs hs :=
  hc.of_like (h.suffix hc.stack hn) h.frames h.handlers

theorem Context.Over.cons_handlers {h : Handler} {rest : List Handler} (hc : c.Over kept fs hs)
    (hhandlers : c.handlers = h :: rest) (hle : hs.length ≤ rest.length) :
    ∃ new, rest = new ++ hs ∧ h.frames ≤ c.depth ∧ kept.length ≤ h.sp ∧
      Descends fs.length kept.length h.frames new := by
  obtain ⟨new, hnew, hdescends⟩ := hc.handlers
  rw [hhandlers] at hnew
  cases hdescends with
  | nil =>
    rw [List.nil_append] at hnew
    rw [← hnew, List.length_cons] at hle
    omega
  | cons hframes hsp hrest =>
    rw [List.cons_append] at hnew
    cases hnew
    exact ⟨_, rfl, hframes, hsp, hrest⟩

theorem Context.Over.cons_frames {f : Frame} {rest : List Frame} (hc : c.Over kept fs hs)
    (hframes : c.frames = f :: rest) (hle : fs.length ≤ rest.length) :
    ∃ new, rest = new ++ fs ∧ kept.length ≤ f.savedSp ∧ ∀ g ∈ new, kept.length ≤ g.savedSp := by
  obtain ⟨new, hnew, hsaved⟩ := hc.frames
  rw [hframes] at hnew
  cases new with
  | nil =>
    rw [List.nil_append] at hnew
    rw [← hnew, List.length_cons] at hle
    omega
  | cons g new =>
    rw [List.cons_append] at hnew
    cases hnew
    obtain ⟨hf, hrest⟩ := List.forall_mem_cons.mp hsaved
    exact ⟨_, rfl, hf, hrest⟩

/-- An instruction that takes nothing of what is kept, and goes below the floor neither with a
return nor with a handler, leaves the context over the floor. -/
theorem Effect.over {ip : Nat} (h : Effect base op n c (.run base ip) c') (hc : c.Over kept fs hs)
    (hn : kept.length ≤ c.sp - n) (hbase : base.handlers ≤ hs.length)
    (hdepth : fs.length ≤ c'.depth) (hcount : hs.length ≤ c'.handlerCount) :
    c'.Over kept fs hs := by
  cases h with
  | trade htrade => exact htrade.over hc hn
  | install hframes hsp =>
    obtain ⟨new, hnew, hdescends⟩ := hc.handlers
    refine ⟨hc.stack, hc.frames, _ :: new, by rw [hnew, List.cons_append], ?_⟩
    refine .cons (Nat.le_of_eq hframes) ?_ (hframes ▸ hdescends)
    rw [hsp]
    exact hc.stack.length_le
  | uninstall hhandlers =>
    obtain ⟨new, hnew, hframes, -, hdescends⟩ := hc.cons_handlers hhandlers hcount
    exact ⟨hc.stack, hc.frames, new, hnew, hdescends.mono hframes⟩
  | enter hle hsaved =>
    obtain ⟨newFrames, hnewFrames, hsaves⟩ := hc.frames
    obtain ⟨newHandlers, hnewHandlers, hdescends⟩ := hc.handlers
    refine ⟨?_, ⟨_ :: newFrames, by rw [hnewFrames, List.cons_append], ?_⟩,
      ⟨newHandlers, hnewHandlers, hdescends.mono (Nat.le_succ _)⟩⟩
    · refine List.suffix_of_suffix_length_le hc.stack (List.drop_suffix n c.stack) ?_
      rw [List.length_drop]
      exact hn
    · refine List.forall_mem_cons.mpr ⟨?_, hsaves⟩
      rw [hsaved]
      exact hn
  | @ret v below f frames _ hstack hframes hsaved _ _ =>
    obtain ⟨newFrames, hnewFrames, hf, hsaves⟩ := hc.cons_frames hframes hdepth
    obtain ⟨newHandlers, hnewHandlers, hdescends⟩ := hc.handlers
    have hc_depth : c.depth = frames.length + 1 := by simp [Context.depth, hframes]
    have hbelow : kept <:+ below := by
      refine List.suffix_of_suffix_length_le hc.stack (hstack ▸ List.suffix_cons v below) ?_
      simpa [Context.sp, hstack] using hn
    refine ⟨?_, ⟨newFrames, hnewFrames, hsaves⟩, ?_⟩
    · exact (suffix_keepOldest hbelow hf).trans (List.suffix_cons v _)
    · rw [Context.handlerCount, hnewHandlers] at hcount
      rw [Context.depth] at hdepth
      have hdeep : fs.length < c.depth := by
        rw [hc_depth]
        exact Nat.lt_succ_of_le hdepth
      obtain ⟨kept', hkept', hdescends'⟩ := dropHandlers_append hdescends hdeep hbase hcount
      refine ⟨kept', by rw [hnewHandlers, hkept'], ?_⟩
      rw [hc_depth] at hdescends'
      exact hdescends'
  | @caught _ _ v e rest _ t hop htrade hroom hhandlers hown =>
    have ht := htrade.over hc hn
    obtain ⟨newHandlers, hnewHandlers, hframes, hsp, hdescends⟩ :=
      ht.cons_handlers hhandlers hcount
    obtain ⟨newFrames, hnewFrames, hsaves⟩ := ht.frames
    have hfloor := hdescends.low_le
    refine ⟨?_, ⟨keepOldest (e.frames - fs.length) newFrames, ?_, ?_⟩,
      ⟨newHandlers, hnewHandlers, ?_⟩⟩
    · exact (suffix_keepOldest ht.stack hsp).trans (List.suffix_cons v _)
    · rw [hnewFrames, keepOldest_append hfloor]
    · intro f hf
      exact hsaves f ((keepOldest_suffix _ _).subset hf)
    · refine hdescends.mono ?_
      rw [Context.depth] at hframes ⊢
      rw [length_keepOldest]
      omega

end Over

end StackVM
