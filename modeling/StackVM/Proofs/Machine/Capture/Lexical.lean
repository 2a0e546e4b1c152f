import StackVM.Proofs.Machine.Capture.Lives

/-! # Lexical scope

A closure keeps the local variables of the frame it was made in and those that this frame had
captured, so a frame of the closure sees the variables of the frame around it one scope further up,
whether or not that frame is still there.
-/
namespace StackVM

namespace Config
variable {host : Host} {c d : Config} {f g : Frame} {fs : List Frame} {r : ClosureRef}

/-- The next step is a `MAKE_CLOSURE` in this frame, and it makes this closure. -/
structure Captures (host : Host) (c : Config) (f : Frame) (r : ClosureRef) (d : Config) :
    Prop where
  fetches : ∃ e, c.Fetches ⟨.makeClosure, e⟩
  frame : c.state.context.frames.head? = some f
  step : step host c = some d
  goes : ∃ base ip, d.control = .run base ip
  top : d.state.context.stack.head? = some (.func (.closure r))

/-- The next step enters the closure that was chosen for a call, with this frame. -/
structure Opens (host : Host) (c : Config) (r : ClosureRef) (g : Frame) (d : Config) : Prop where
  chosen : c.control = .dispatched (.ok (.enter r))
  step : step host c = some d
  frame : d.state.context.frames = g :: c.state.context.frames

theorem Captures.scope (h : c.Captures host f r d) :
    r.id < d.state.machine.store.closures.size ∧
      (d.state.machine.store.closure r).scope = f.locals :: f.scope := by
  obtain ⟨e, base, ip, next, hcontrol, hdecode⟩ := h.fetches
  obtain ⟨control, p, s⟩ := c
  cases hcontrol
  have hstep := h.step
  rw [step_run hdecode] at hstep
  have hd : proceed base ip next p (Exec.makeClosure ip next e s) = d := Option.some.inj hstep
  cases hres : Exec.makeClosure ip next e s with
  | error fault s' =>
    obtain ⟨_, _, hgoes⟩ := h.goes
    rw [← hd, hres] at hgoes
    cases hgoes
  | ok step s' =>
    obtain ⟨rfl, hcaptured⟩ := (Exec.makeClosure_ends ip next e s).ok hres
    obtain ⟨made, hscope, hclosures⟩ := hcaptured.closures
    rw [hres] at hd
    cases hd
    cases hcaptured.top.symm.trans h.top
    have hframe : s.context.scope = f.locals :: f.scope := by
      obtain ⟨fs, hfs⟩ := List.head?_eq_some_iff.mp h.frame
      unfold Context.scope
      rw [hfs]
    constructor
    · simp [proceed, hclosures]
    · simp [proceed, Store.closure, hclosures, hscope, hframe]

theorem Opens.entered (h : c.Opens host r g d) : c.state.Entered r g d.state := by
  obtain ⟨r', hchosen, hentered⟩ := (varies_of_step h.step).entered h.frame
  cases h.chosen.symm.trans hchosen
  exact hentered

end Config

theorem Past.OwnContexts.steps {past : Past} (h : Past.OwnContexts past) (ctx : Context)
    (cs : List Config) :
    Past.OwnContexts ((cs.map fun x => (Moment.run ctx x, Event.step)).reverse ++ past) := by
  induction cs generalizing past with
  | nil => exact h
  | cons c cs ih =>
    rw [List.map_cons, List.reverse_cons, List.append_assoc]
    exact ih h

theorem Life.onward {host : Host} {past : Past} {ctx : Context} {c : Config}
    (h : Life host past (.run ctx c)) (hown : Past.OwnContexts past) (n : Nat) :
    ∃ past', Life host past' (.run ctx (Config.path host n c).2) ∧ Past.OwnContexts past' ∧
      past ⊆ past' :=
  ⟨_, h.steps (Config.trace_path host n c), hown.steps ctx _, List.subset_append_right _ _⟩

theorem Life.reached {host : Host} {past : Past} {m : Machine} (h : Life host past (.rest m))
    (hown : Past.OwnContexts past) (entry n : Nat) :
    ∃ past', Life host past' (.run .new (Config.path host n (m.runConfig .new entry)).2) ∧
      Past.OwnContexts past' := by
  have hstarted : Past.OwnContexts ((.rest m, .start .new entry) :: past) := ⟨.inl rfl, hown⟩
  obtain ⟨past', hlife, hown', -⟩ := (h.next (.start m .new entry)).onward hstarted n
  exact ⟨past', hlife, hown'⟩

end StackVM
