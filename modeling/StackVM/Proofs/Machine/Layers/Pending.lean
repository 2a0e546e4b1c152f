import StackVM.Proofs.Machine.Layers.Ground

/-! # Layers of pending work

`Layered` says for all pending work, down to some ground, that each run that waits has its layer.
The ground may be a run, a part of one, or a native. A change of the newest layer that does not go
below its floor carries over to the layers below.
-/
namespace StackVM

/-- The context is that of all pending work: what is in control of it in the given mode, and for
each run that waits the context in which a native started it. Below stands the ground. -/
def Layered (kept : List Value) (ground : Mode → Context → Prop) :
    Mode → List Pending → Context → Prop
  | mode, [], c => ground mode c
  | .choosing, .call base _ _ _ _ :: q, c => Layered kept ground (.running base) q c
  | .choosing, .overloads _ _ _ :: q, c => Layered kept ground .choosing q c
  | .choosing, .native _ _ :: q, c => Layered kept ground .choosing q c
  | mode, .nested base savedSp _ _ :: q, c =>
    ∃ k fs, base.nested = true ∧ base.Floor k fs ∧ savedSp = k.sp ∧ kept.length ≤ k.sp ∧
      Layer kept base fs k mode c ∧ Layered kept ground .choosing q k
  | _, _, _ => False

/-- The same frames and handlers, and no more values. -/
structure Context.Shrinks (kept : List Value) (c c' : Context) : Prop where
  frames : c'.frames = c.frames
  handlers : c'.handlers = c.handlers
  stack : kept <:+ c.stack → kept <:+ c'.stack
  sp : c'.sp ≤ c.sp

theorem Context.Shrinks.refl (kept : List Value) (c : Context) : c.Shrinks kept c :=
  ⟨rfl, rfl, id, Nat.le_refl _⟩

/-- What a step has to keep of the ground while it works above: a run of the ground keeps `kept`
on its stack, and the second ground holds where the first one did, also if values were taken. -/
structure Carries (kept : List Value) (c : Context) (ground ground' : Mode → Context → Prop) :
    Prop where
  choosing : ∀ {k}, ground .choosing k → kept <:+ k.stack
  running : ∀ {base k}, ground (.running base) k → kept <:+ k.stack
  shrink : ∀ {mode k k'}, ground mode k → k.frames <:+ c.frames → k.handlers <:+ c.handlers →
    k.Shrinks kept k' → ground' mode k'
  stuck : ∀ {base k f}, ground (.running base) k → ground' (.ended (.error f)) k

section Layered
variable {kept : List Value} {ground ground' : Mode → Context → Prop} {mode : Mode} {base : Base}
  {fs : List Frame} {q works : List Pending} {k k' c c' top : Context}

theorem layered_nested {savedSp entry : Nat} {resume : Resume} :
    Layered kept ground mode (.nested base savedSp entry resume :: q) c ↔
      ∃ k fs, base.nested = true ∧ base.Floor k fs ∧ savedSp = k.sp ∧ kept.length ≤ k.sp ∧
        Layer kept base fs k mode c ∧ Layered kept ground .choosing q k := by
  cases mode <;> exact Iff.rfl

theorem Layer.shrinks (h : Layer kept base fs k mode c) (hc : c.Shrinks kept c') :
    Layer kept base fs k mode c' := by
  have hover : c.Over kept fs k.handlers → c'.Over kept fs k.handlers := fun ho =>
    ho.of_like (hc.stack ho.stack) hc.frames hc.handlers
  have hleft : (c.frames = k.frames ∧ c.handlers = k.handlers ∧
      (base.nested = true → kept <:+ c.stack ∧ c.sp ≤ k.sp)) →
      c'.frames = k.frames ∧ c'.handlers = k.handlers ∧
        (base.nested = true → kept <:+ c'.stack ∧ c'.sp ≤ k.sp) := by
    rintro ⟨hframes, hhandlers, hstack⟩
    refine ⟨hc.frames.trans hframes, hc.handlers.trans hhandlers, fun hnested => ?_⟩
    exact ⟨hc.stack (hstack hnested).1, Nat.le_trans hc.sp (hstack hnested).2⟩
  cases mode with
  | choosing => exact h
  | running base' => exact ⟨h.1, hover h.2⟩
  | ended result =>
    cases result with
    | error f => exact hover h
    | ok e =>
      cases e with
      | halted v => exact ⟨h.1, hover h.2⟩
      | returned v => exact hleft h
      | raised v => exact hleft h

theorem Layer.over_or_left (h : Layer kept base fs k mode c) :
    c.Over kept fs k.handlers ∨ c.frames = k.frames ∧ c.handlers = k.handlers := by
  cases mode with
  | choosing => exact h.elim
  | running base' => exact Or.inl h.2
  | ended result =>
    cases result with
    | error f => exact Or.inl h
    | ok e =>
      cases e with
      | halted v => exact Or.inl h.2
      | returned v => exact Or.inr ⟨h.1, h.2.1⟩
      | raised v => exact Or.inr ⟨h.1, h.2.1⟩

theorem Layer.suffix (h : Layer kept base fs k mode c) (hfloor : base.Floor k fs) :
    k.frames <:+ c.frames ∧ k.handlers <:+ c.handlers := by
  rcases h.over_or_left with hover | ⟨hframes, hhandlers⟩
  · exact ⟨hfloor.suffix.trans hover.frames_suffix, hover.handlers_suffix⟩
  · exact ⟨hframes ▸ List.suffix_rfl, hhandlers ▸ List.suffix_rfl⟩

theorem Layered.carry (h : Layered kept ground mode q k) (hcarry : Carries kept top ground ground')
    (hframes : k.frames <:+ top.frames) (hhandlers : k.handlers <:+ top.handlers)
    (hk : k.Shrinks kept k') : Layered kept ground' mode q k' := by
  induction q generalizing mode k k' with
  | nil => exact hcarry.shrink h hframes hhandlers hk
  | cons work q ih =>
    cases work with
    | nested base savedSp entry resume =>
      obtain ⟨k₀, fs, hnested, hfloor, hsp, hkept, hlayer, hbelow⟩ := layered_nested.mp h
      obtain ⟨hf, hh⟩ := hlayer.suffix hfloor
      refine layered_nested.mpr ⟨k₀, fs, hnested, hfloor, hsp, hkept, hlayer.shrinks hk, ?_⟩
      exact ih hbelow (hf.trans hframes) (hh.trans hhandlers) (.refl kept k₀)
    | call | overloads | native =>
      cases mode with
      | choosing => exact ih h hframes hhandlers hk
      | running | ended => exact h.elim

theorem Layered.stack (h : Layered kept ground mode q c) (hcarry : Carries kept top ground ground')
    (hmode : ∀ result, mode ≠ .ended result) : kept <:+ c.stack := by
  induction q generalizing mode with
  | nil =>
    cases mode with
    | choosing => exact hcarry.choosing h
    | running => exact hcarry.running h
    | ended result => exact absurd rfl (hmode result)
  | cons work q ih =>
    cases work with
    | nested base savedSp entry resume =>
      obtain ⟨k, fs, -, -, -, -, hlayer, -⟩ := layered_nested.mp h
      cases mode with
      | choosing => exact hlayer.elim
      | running => exact hlayer.2.stack
      | ended result => exact absurd rfl (hmode result)
    | call | overloads | native =>
      cases mode with
      | choosing => exact ih h (by simp)
      | running | ended => exact h.elim

theorem Layered.passive (h : Layered kept ground .choosing q c) (hw : ∀ w ∈ works, w.IsPassive) :
    Layered kept ground .choosing (works ++ q) c := by
  induction works with
  | nil => exact h
  | cons w works ih =>
    obtain ⟨hw, hworks⟩ := List.forall_mem_cons.mp hw
    cases w with
    | overloads | native => exact ih hworks
    | call | nested => exact hw.elim

theorem Layered.effect {op : Opcode} {n : Nat} {control : Control}
    (h : Layered kept ground (.running base) q c) (heffect : Effect base op n c control c')
    (hcarry : Carries kept c ground ground') (hn : kept.length ≤ c.sp → kept.length ≤ c.sp - n)
    (hground : q = [] → ground (.running base) c → ground' control.mode c') :
    Layered kept ground' control.mode q c' := by
  cases q with
  | nil => exact hground rfl h
  | cons work q =>
    cases work with
    | call | overloads | native => exact h.elim
    | nested base' savedSp entry resume =>
      obtain ⟨k, fs, hnested, hfloor, hsp, hkept, hlayer, hbelow⟩ := layered_nested.mp h
      obtain ⟨hframes, hhandlers⟩ := hlayer.suffix hfloor
      obtain ⟨rfl, hover⟩ := hlayer
      refine layered_nested.mpr ⟨k, fs, hnested, hfloor, hsp, hkept, ?_, ?_⟩
      · exact heffect.layer hfloor hover hkept (hn hover.stack.length_le)
      · exact hbelow.carry hcarry hframes hhandlers (.refl kept k)

theorem Layered.stuck {f : Fault} (h : Layered kept ground (.running base) q c)
    (hcarry : Carries kept c ground ground') : Layered kept ground' (.ended (.error f)) q c := by
  cases q with
  | nil => exact hcarry.stuck h
  | cons work q =>
    cases work with
    | call | overloads | native => exact h.elim
    | nested base' savedSp entry resume =>
      obtain ⟨k, fs, hnested, hfloor, hsp, hkept, hlayer, hbelow⟩ := layered_nested.mp h
      obtain ⟨hframes, hhandlers⟩ := hlayer.suffix hfloor
      refine layered_nested.mpr ⟨k, fs, hnested, hfloor, hsp, hkept, hlayer.2, ?_⟩
      exact hbelow.carry hcarry hframes hhandlers (.refl kept k)

/-- The end of a nested run leaves what its native had found. -/
theorem Layer.finishRun {result : Except Fault Exit} {s : State}
    (h : Layer kept base fs k (.ended result) s.context) (hfloor : base.Floor k fs)
    (hnested : base.nested = true) (hkept : kept.length ≤ k.sp) (entry : Nat) :
    k.Shrinks kept (Config.finishRun base k.sp entry s result).2.context := by
  have hrestore : s.context.Over kept fs k.handlers →
      k.Shrinks kept (Config.restore base k.sp s).context := by
    intro ho
    refine ⟨?_, ?_, fun _ => suffix_keepOldest ho.stack hkept, ?_⟩
    · exact keepOldest_eq_of_suffix (hfloor.suffix.trans ho.frames_suffix) hfloor.frames_eq.symm
    · exact keepOldest_eq_of_suffix ho.handlers_suffix hfloor.handlers_eq.symm
    · simp only [Config.restore, Context.sp, length_keepOldest]
      exact Nat.min_le_left _ _
  cases result with
  | error f => exact hrestore h
  | ok e =>
    cases e with
    | halted v => exact hrestore h.2
    | returned v =>
      obtain ⟨hframes, hhandlers, hstack⟩ := h
      exact ⟨hframes, hhandlers, fun _ => (hstack hnested).1, (hstack hnested).2⟩
    | raised v =>
      obtain ⟨hframes, hhandlers, hstack⟩ := h
      exact ⟨hframes, hhandlers, fun _ => (hstack hnested).1, (hstack hnested).2⟩

theorem Layered.suffix {below : Context}
    (hground : ∀ mode k, ground mode k → below.frames <:+ k.frames ∧ below.handlers <:+ k.handlers)
    (h : Layered kept ground mode q c) :
    below.frames <:+ c.frames ∧ below.handlers <:+ c.handlers := by
  induction q generalizing mode c with
  | nil => exact hground mode c h
  | cons work q ih =>
    cases work with
    | nested base savedSp entry resume =>
      obtain ⟨k, fs, -, hfloor, -, -, hlayer, hbelow⟩ := layered_nested.mp h
      obtain ⟨hframes, hhandlers⟩ := hlayer.suffix hfloor
      obtain ⟨hk, hk'⟩ := ih hbelow
      exact ⟨hk.trans hframes, hk'.trans hhandlers⟩
    | call | overloads | native =>
      cases mode with
      | choosing => exact ih h
      | running | ended => exact h.elim

theorem Layer.carries (kept : List Value) (base : Base) (fs : List Frame) (k top : Context) :
    Carries kept top (Layer kept base fs k) (Layer kept base fs k) where
  choosing h := h.elim
  running h := h.2.stack
  shrink h _ _ hc := h.shrinks hc
  stuck h := h.2

end Layered

end StackVM
