import StackVM.Proofs.Machine.Confined

/-! # Stretches of a run

The call of a closure lasts until its frame is popped, and a handler stays installed until it is
removed. In between the run may do anything above: the frames and handlers that it started the
stretch with stay where they are, for one of two reasons. As long as the depth does not fall, no
older handler can be removed; and as long as a handler is there, its frame cannot be popped.
-/
namespace StackVM

/-- The ground of a run that does not go below the given frames and handlers. -/
def Stretch (kept : List Value) (base : Base) (fs : List Frame) (hs : List Handler) :
    Mode → Context → Prop
  | .choosing, _ => False
  | .running base', c => base' = base ∧ c.Over kept fs hs
  | .ended _, _ => True

section Stretch
variable {kept : List Value} {base : Base} {fs : List Frame} {hs : List Handler} {op : Opcode}
  {n ip : Nat} {c c' : Context}

theorem Stretch.carries (kept : List Value) (base : Base) (fs : List Frame) (hs : List Handler)
    (top : Context) : Carries kept top (Stretch kept base fs hs) (Stretch kept base fs hs) where
  choosing h := h.elim
  running h := h.2.stack
  shrink := by
    intro mode k k' h _ _ hk
    cases mode with
    | choosing => exact h.elim
    | running => exact ⟨h.1, h.2.of_like (hk.stack h.2.stack) hk.frames hk.handlers⟩
    | ended => trivial
  stuck _ := trivial

theorem Effect.over_of_depth (h : Effect base op n c (.run base ip) c') (hc : c.Over kept fs hs)
    (hn : kept.length ≤ c.sp - n) (hbase : base.handlers ≤ hs.length)
    (hold : ∀ e rest, hs = e :: rest → base.handlers ≤ rest.length → e.frames < fs.length)
    (hdepth : fs.length ≤ c'.depth) : c'.Over kept fs hs := by
  refine h.over hc hn hbase hdepth ?_
  have hcount : hs.length ≤ c.handlerCount := hc.handlers_suffix.length_le
  have hnewest : ∀ {e rest}, c.handlers = e :: rest → base.handlers ≤ rest.length →
      fs.length ≤ e.frames → hs.length ≤ rest.length := by
    intro e rest heq hown hframes
    by_contra hlt
    have hsuffix := heq ▸ hc.handlers_suffix
    have hall : hs = e :: rest := hsuffix.eq_of_length_le (by rw [List.length_cons]; omega)
    exact absurd (hold e rest hall hown) (Nat.not_lt_of_le hframes)
  cases h with
  | trade htrade =>
    rw [Context.handlerCount, htrade.handlers]
    exact hcount
  | install => exact Nat.le_succ_of_le hcount
  | enter => exact hcount
  | uninstall hhandlers hown hframes => exact hnewest hhandlers hown (hframes ▸ hdepth)
  | ret _ hframes =>
    obtain ⟨new, hnew, -⟩ := hc.handlers
    rw [Context.handlerCount, hnew]
    refine le_length_dropHandlers_append new (dropHandlers_eq_self ?_)
    intro e rest heq hown
    have hlt := hold e rest heq hown
    simp only [Context.depth, hframes, List.length_cons] at hdepth ⊢
    omega
  | caught _ htrade _ hhandlers hown =>
    refine hnewest (htrade.handlers.symm.trans hhandlers) hown ?_
    simp only [Context.depth, length_keepOldest] at hdepth
    omega

theorem Effect.over_of_handler {e : Handler} (h : Effect base op n c (.run base ip) c')
    (hc : c.Over kept fs (e :: hs)) (hn : kept.length ≤ c.sp - n) (hown : base.handlers ≤ hs.length)
    (hframes : e.frames = fs.length) (hcount : hs.length < c'.handlerCount) :
    c'.Over kept fs (e :: hs) := by
  refine h.over hc hn (Nat.le_succ_of_le hown) ?_ hcount
  have hdepth : fs.length ≤ c.depth := hc.frames_suffix.length_le
  cases h with
  | trade htrade =>
    rw [Context.depth, htrade.frames]
    exact hdepth
  | install => exact hdepth
  | uninstall => exact hdepth
  | enter => exact Nat.le_succ_of_le hdepth
  | @ret v below f frames _ _ hstack =>
    by_contra hlt
    have hfloor : c.depth = fs.length := by
      simp only [Context.depth, hstack, List.length_cons] at hdepth hlt ⊢
      omega
    obtain ⟨new, hnew, hdescends⟩ := hc.handlers
    rw [hfloor] at hdescends
    have hdropped : Exec.dropHandlers base.handlers fs.length (e :: hs) <:+ hs := by
      rw [Exec.dropHandlers, if_pos ⟨Nat.lt_succ_of_le hown, Nat.le_of_eq hframes.symm⟩]
      exact dropHandlers_suffix _ _ _
    have hle := hdropped.length_le
    rw [Context.handlerCount, hnew, hfloor,
      dropHandlers_floor hdescends (Nat.le_succ_of_le hown)] at hcount
    exact Nat.not_lt_of_le hle hcount
  | caught _ htrade _ hhandlers =>
    have hover := htrade.over hc hn
    obtain ⟨new, -, hle, -, hdescends⟩ := hover.cons_handlers hhandlers hcount
    have hlow := hdescends.low_le
    simp only [Context.depth, length_keepOldest] at hle ⊢
    omega

end Stretch

namespace Config
variable {host : Host} {kept : List Value} {base : Base} {fs : List Frame} {hs : List Handler}
  {rest : List Pending} {e c : Config} {cs : List Config}

/-- What holds at the start of a stretch holds throughout, if the steps of the run itself keep it
as long as `R` does. -/
theorem Trace.stretch {R : Context → Prop} (htrace : Trace host e cs c)
    (hroom : e.state.context.sp ≤ Capacity.stack)
    (he : e.Layers kept (Stretch kept base fs hs) rest)
    (hcalm : ∀ x ∈ cs, ¬ x.Resets host ∧ ¬ x.Ended rest)
    (hkept : ∀ x ∈ cs, ∀ p < kept.length, ¬ x.Removes p)
    (hcs : ∀ x ∈ cs, R x.state.context) (hc : R c.state.context)
    (hfloor : ∀ {op n k k' ip}, Effect base op n k (.run base ip) k' → k.Over kept fs hs →
      kept.length ≤ k.sp - n → R k' → k'.Over kept fs hs) :
    c.Layers kept (Stretch kept base fs hs) rest := by
  refine (htrace.induct
    (I := fun _ x => x.state.context.sp ≤ Capacity.stack ∧
      (R x.state.context → x.Layers kept (Stretch kept base fs hs) rest))
    (P := fun x => (¬ x.Resets host ∧ ¬ x.Ended rest) ∧ (∀ p < kept.length, ¬ x.Removes p) ∧
      R x.state.context)
    ⟨hroom, fun _ => he⟩ (fun x hx => ⟨hcalm x hx, hkept x hx, hcs x hx⟩) ?_).2 hc
  rintro xs x y ⟨⟨hcalm, hgoing⟩, hkept, hx⟩ ⟨hsp, hlayers⟩ hstep
  have hlayers := hlayers hx
  have hmoves := moves_of_step hstep hcalm hsp
  refine ⟨hmoves.sp_le hsp, fun hy => ?_⟩
  refine hlayers.step hmoves hkept (hlayers.stays (fun _ h => h) hgoing)
    (Stretch.carries _ _ _ _ _) ?_
  rintro b op - ⟨rfl, hover⟩ heffect
  have hn := le_of_not_removes hkept hover.stack.length_le
  rcases heffect.control_cases with ⟨ip, hcontrol⟩ | ⟨result, hcontrol⟩
  · rw [hcontrol] at heffect ⊢
    exact ⟨rfl, hfloor heffect hover hn hy⟩
  · rw [hcontrol]
    trivial

/-- The first piece of the sample code, run on what the second one left behind, after `n` steps. -/
def sample (n : Nat) : Config := (path Host.none n (Machine.sample.runConfig .leftover 0)).2

end Config
end StackVM
