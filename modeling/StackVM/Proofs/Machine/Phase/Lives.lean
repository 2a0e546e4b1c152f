import StackVM.Proofs.Machine.Work.Steps

/-! # Lives and phases

The life of a machine goes from moment to moment: its host loads code, defines natives and names,
and starts runs, and a run goes on step by step until it is finished. A machine at rest is linking
or ready, one in a run is linking or running, and it is linking as long as no run has declared
linking done since the last load.
-/
namespace StackVM

/-- A machine between two operations of its host, or in a run on a context. -/
inductive Moment
  | rest (m : Machine)
  | run (ctx : Context) (c : Config)

/-- What takes a machine from one moment to the next. -/
inductive Event
  | load (code : Array UInt8)
  | define (native : Native)
  | resolve (name : String)
  | check (name : String)
  | start (ctx : Context) (entry : Nat)
  | step
  | finish (result : Except Fault Outcome) (ctx : Context)

def Event.isLoad : Event → Bool
  | .load _ => true
  | _ => false

namespace Moment

def machine : Moment → Machine
  | .rest m => m
  | .run _ c => c.state.machine

inductive Next (host : Host) : Moment → Event → Moment → Prop
  | load (m : Machine) (code : Array UInt8) :
      Next host (.rest m) (.load code) (.rest (m.load code))
  | define (m : Machine) (native : Native) :
      Next host (.rest m) (.define native) (.rest (m.defineNative native).2)
  | resolve (m : Machine) (name : String) :
      Next host (.rest m) (.resolve name) (.rest (m.resolveGlobal name).2)
  | check (m : Machine) (name : String) : Next host (.rest m) (.check name) (.rest m)
  | start (m : Machine) (ctx : Context) (entry : Nat) :
      Next host (.rest m) (.start ctx entry) (.run ctx (m.runConfig ctx entry))
  | step {ctx : Context} {c d : Config} :
      Config.step host c = some d → Next host (.run ctx c) .step (.run ctx d)
  | finish {ctx ctx' : Context} {c : Config} {exit : Except Fault Exit} {s : State}
      {result : Except Fault Outcome} {m : Machine} :
      c.result? = some (exit, s) → Machine.finish ctx.handlerCount exit s = (result, m, ctx') →
      Next host (.run ctx c) (.finish result ctx') (.rest m)

/-- The second moment comes after the first one, and nothing is loaded in between. -/
def Later (host : Host) : Moment → Moment → Prop :=
  Relation.ReflTransGen fun now next => ∃ e, e.isLoad = false ∧ Next host now e next

/-- The moment is one of a run that now executes the end of linking. -/
def EndsLinking : Moment → Prop
  | .rest _ => False
  | .run _ c => c.Fetches ⟨.initDone, ()⟩

end Moment

/-- The moments and events of a life, the newest first. -/
abbrev Past := List (Moment × Event)

/-- A machine can come to this moment after this past. -/
inductive Life (host : Host) : Past → Moment → Prop
  | init (argv : List String) : Life host [] (.rest (.init argv))
  | next {past : Past} {now later : Moment} {e : Event} :
      Life host past now → now.Next host e later → Life host ((now, e) :: past) later

/-- The end of linking was executed since the last load, or since the start if there was none. -/
def Linked : Past → Prop
  | [] => False
  | (_, .load _) :: _ => False
  | (now, _) :: past => now.EndsLinking ∨ Linked past

theorem linked_cons {now : Moment} {e : Event} {past : Past} (he : e.isLoad = false) :
    Linked ((now, e) :: past) ↔ now.EndsLinking ∨ Linked past := by
  cases e with
  | load code => cases he
  | _ => exact Iff.rfl

theorem linked_cons_of_not {now : Moment} {e : Event} {past : Past} (he : e.isLoad = false)
    (hends : ¬ now.EndsLinking) : Linked ((now, e) :: past) ↔ Linked past := by
  rw [linked_cons he]
  simp [hends]

theorem Machine.phase_init (argv : List String) : (Machine.init argv).phase = .linking := rfl

theorem Machine.phase_startRun (m : Machine) :
    m.startRun.phase = if m.phase = .ready then .running else m.phase := by
  unfold Machine.startRun
  split <;> rfl

theorem Machine.phase_endRun (m : Machine) :
    m.endRun.phase = if m.phase = .running then .ready else m.phase := by
  unfold Machine.endRun
  split <;> rfl

theorem Machine.finish_machine {handlers : Nat} {exit : Except Fault Exit} {s : State}
    {result : Except Fault Outcome} {m : Machine} {ctx : Context}
    (h : finish handlers exit s = (result, m, ctx)) : m = s.machine.endRun := by
  rcases exit with f | e
  · cases h
    rfl
  · cases e <;> (cases h; rfl)

/-- The phase of a linked machine. -/
def Moment.linkedPhase : Moment → Phase
  | .rest _ => .ready
  | .run _ _ => .running

/-- The phase tells whether the machine was linked in the past. -/
structure Moment.Phased (past : Past) (now : Moment) : Prop where
  linked : Linked past → now.machine.phase = now.linkedPhase
  unlinked : ¬ Linked past → now.machine.phase = .linking

namespace Moment.Phased
variable {past : Past} {now : Moment}

theorem linking_iff (h : now.Phased past) : now.machine.phase = .linking ↔ ¬ Linked past := by
  constructor
  · intro hphase hlinked
    have hother := h.linked hlinked
    cases now <;> simp [hphase, linkedPhase] at hother
  · exact h.unlinked

theorem keep {later : Moment} {e : Event} (h : now.Phased past) (he : e.isLoad = false)
    (hends : ¬ now.EndsLinking) (hphase : later.machine.phase = now.machine.phase)
    (hlater : later.linkedPhase = now.linkedPhase) : later.Phased ((now, e) :: past) := by
  have hlinked : Linked ((now, e) :: past) ↔ Linked past := linked_cons_of_not he hends
  constructor
  · intro hl
    rw [hphase, hlater]
    exact h.linked (hlinked.mp hl)
  · intro hl
    rw [hphase]
    exact h.unlinked (hlinked.not.mp hl)

theorem start {m : Machine} (h : (Moment.rest m).Phased past) (ctx : Context) (entry : Nat) :
    (Moment.run ctx (m.runConfig ctx entry)).Phased ((.rest m, .start ctx entry) :: past) := by
  have hrun : (Moment.run ctx (m.runConfig ctx entry)).machine.phase =
      if m.phase = .ready then .running else m.phase := m.phase_startRun
  have hlinked : Linked ((.rest m, .start ctx entry) :: past) ↔ Linked past :=
    linked_cons_of_not rfl id
  constructor
  · intro hl
    have hready : m.phase = .ready := h.linked (hlinked.mp hl)
    simp [hrun, hready, linkedPhase]
  · intro hl
    have hlinking : m.phase = .linking := h.unlinked (hlinked.not.mp hl)
    simp [hrun, hlinking]

theorem step {host : Host} {ctx : Context} {c d : Config} (h : (Moment.run ctx c).Phased past)
    (hstep : Config.step host c = some d) :
    (Moment.run ctx d).Phased ((.run ctx c, .step) :: past) := by
  generalize hm : d.state.machine = m
  have halters := Config.alters_of_step hstep
  rw [hm] at halters
  cases halters with
  | work hends hworked =>
    have hphase : d.state.machine.phase = c.state.machine.phase := by rw [hm, hworked.code.2]
    exact h.keep rfl hends hphase rfl
  | patch hfetches hphase _ _ =>
    have hends : ¬ (Moment.run ctx c).EndsLinking := by
      intro hdone
      cases hfetches.unique hdone
    have hsame : d.state.machine.phase = c.state.machine.phase := by rw [hm]
    exact h.keep rfl hends hsame rfl
  | link hends =>
    have hlinked : Linked ((.run ctx c, .step) :: past) := (linked_cons rfl).mpr (.inl hends)
    refine ⟨fun _ => ?_, fun hnot => absurd hlinked hnot⟩
    change d.state.machine.phase = .running
    rw [hm]
    split
    next => rfl
    next hphase =>
      have hl : Linked past := Classical.not_not.mp fun hn => hphase (h.unlinked hn)
      exact h.linked hl

theorem finish {ctx ctx' : Context} {c : Config} {exit : Except Fault Exit} {s : State}
    {result : Except Fault Outcome} {m : Machine} (h : (Moment.run ctx c).Phased past)
    (hresult : c.result? = some (exit, s))
    (hfinish : Machine.finish ctx.handlerCount exit s = (result, m, ctx')) :
    (Moment.rest m).Phased ((.run ctx c, .finish result ctx') :: past) := by
  obtain ⟨hcontrol, -, rfl⟩ := Config.control_of_result? hresult
  have hrest : (Moment.rest m).machine.phase =
      if c.state.machine.phase = .running then .ready else c.state.machine.phase := by
    rw [Machine.finish_machine hfinish]
    exact c.state.machine.phase_endRun
  have hends : ¬ (Moment.run ctx c).EndsLinking := by
    rintro ⟨_, _, _, hrun, _⟩
    simp [hcontrol] at hrun
  have hlinked : Linked ((.run ctx c, .finish result ctx') :: past) ↔ Linked past :=
    linked_cons_of_not rfl hends
  constructor
  · intro hl
    have hrunning : c.state.machine.phase = .running := h.linked (hlinked.mp hl)
    simp [hrest, hrunning, linkedPhase]
  · intro hl
    have hlinking : c.state.machine.phase = .linking := h.unlinked (hlinked.not.mp hl)
    simp [hrest, hlinking]

end Moment.Phased

/-- The invariant of lives: one case for each event. -/
theorem Life.phased {host : Host} {past : Past} {now : Moment} (h : Life host past now) :
    now.Phased past := by
  induction h with
  | init argv => exact ⟨fun h => h.elim, fun _ => Machine.phase_init argv⟩
  | next hlife hnext ih =>
    cases hnext with
    | load m code => exact ⟨fun h => h.elim, fun _ => rfl⟩
    | define m native => exact ih.keep rfl id (m.worked_defineNative native).code.2 rfl
    | resolve m name => exact ih.keep rfl id rfl rfl
    | check m name => exact ih.keep rfl id rfl rfl
    | start m ctx entry => exact ih.start ctx entry
    | step hstep => exact ih.step hstep
    | finish hresult hfinish => exact ih.finish hresult hfinish

end StackVM
