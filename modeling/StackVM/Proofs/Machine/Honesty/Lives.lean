import StackVM.Proofs.Machine.Honesty.Steps

/-! # Lives with honest natives

With honest natives every moment of a life is coherent, and so are all moments it looks back on.
-/
namespace StackVM

theorem Machine.Coherent.defineTypes (ts : List Tag) {g : Globals} {st : Store} {phase : Phase}
    (h : Machine.Coherent ⟨.empty, g, phase, st⟩) : Machine.Coherent
      ⟨.empty, ts.foldl (fun g t => (g.define t.name (.type t)).2) g, phase, st⟩ := by
  induction ts generalizing g with
  | nil => exact h
  | cons t ts ih =>
    have htype : (Value.type t).Live st := trivial
    exact ih (h.define htype t.name)

theorem Machine.Coherent.defineNatives (table : List (String × Builtin)) {m : Machine}
    (h : m.Coherent) :
    (table.foldl (fun m (name, b) => (m.defineNative ⟨name, .builtin b⟩).2) m).Coherent := by
  induction table generalizing m with
  | nil => exact h
  | cons native table ih => exact ih (h.defineNative _).2

theorem Machine.Coherent.init (argv : List String) : (Machine.init argv).Coherent := by
  have hargs : ∀ v ∈ (argv.map Value.str).toArray, v.Live Store.empty := by
    intro v hv
    obtain ⟨_, -, rfl⟩ := List.mem_map.mp (List.mem_toArray.mp hv)
    trivial
  have harr := (Store.Coherent.empty Program.empty.size).newArr hargs
  have hempty : Machine.Coherent ⟨.empty, .empty, .linking,
      (Store.empty.newArr (argv.map Value.str).toArray).2⟩ :=
    ⟨harr.coherent, by simp [Globals.empty]⟩
  have hcount : (Value.int (Int64.ofNat argv.length)).Live
      (Store.empty.newArr (argv.map Value.str).toArray).2 := trivial
  have hargc := (hempty.define harr.live "ARGV").define hcount "ARGC"
  exact (hargc.defineTypes Tag.all).defineNatives Builtin.table

/-- Whatever the machine or a context of its host refers to exists. -/
structure Moment.Coherent (past : Past) (now : Moment) : Prop where
  machine : now.machine.Coherent
  config : ∀ ctx c, now = .run ctx c → c.Coherent
  visited : ∀ ctx, Past.Visits past ctx → ∀ v ∈ ctx.stack, v.Live now.machine.store

section Life
variable {host : Host} {past : Past} {now later : Moment} {e : Event}

theorem Machine.Coherent.startRun {m : Machine} (h : m.Coherent) : m.startRun.Coherent := by
  unfold Machine.startRun
  split
  · exact h.withProgram (Nat.le_refl _) .running
  · exact h

theorem Machine.Coherent.endRun {m : Machine} (h : m.Coherent) : m.endRun.Coherent := by
  unfold Machine.endRun
  split
  · exact h.withProgram (Nat.le_refl _) .ready
  · exact h

/-- What an event does to the machine, one case for each. -/
theorem Moment.Coherent.machine_next (hhost : host.Honest) (h : now.Coherent past)
    (hnext : now.Next host e later) :
    now.machine.store.Grows later.machine.store ∧ later.machine.Coherent := by
  have hnow := h.machine
  cases hnext with
  | load m code =>
    have hsize : m.program.size ≤ (m.program.append code).size := by
      simp [Program.size, Program.append]
    exact ⟨.refl _, hnow.withProgram hsize .linking⟩
  | define m native => exact Machine.Coherent.defineNative hnow native
  | resolve m name => exact ⟨.refl _, hnow.resolve name⟩
  | check m name => exact ⟨.refl _, hnow⟩
  | start m ctx entry =>
    refine ⟨?_, hnow.startRun⟩
    change m.store.Grows m.startRun.store
    rw [m.store_startRun]
    exact .refl _
  | @step ctx c d hstep =>
    have hd := Config.step_inherits hhost (h.config ctx c rfl) hstep
    exact ⟨hd.grows, hd.coherent.state.machine⟩
  | @finish ctx ctx' c exit s result m hresult hfinish =>
    obtain ⟨-, -, rfl⟩ := Config.control_of_result? hresult
    obtain rfl := Machine.finish_machine hfinish
    refine ⟨?_, hnow.endRun⟩
    change c.state.machine.store.Grows c.state.machine.endRun.store
    rw [Machine.store_endRun]
    exact .refl _

theorem Moment.Coherent.config_next (hhost : host.Honest) (h : now.Coherent past) {ctx : Context}
    {c : Config} (hnext : now.Next host e (.run ctx c))
    (hown : Past.OwnContexts ((now, e) :: past)) : c.Coherent := by
  cases hnext with
  | start m _ entry =>
    have hstack : ∀ v ∈ ctx.stack, v.Live m.store := h.visited ctx hown.1
    rw [← m.store_startRun] at hstack
    exact ⟨⟨h.machine.startRun, hstack⟩, trivial, List.forall_mem_nil _⟩
  | step hstep => exact (Config.step_inherits hhost (h.config ctx _ rfl) hstep).coherent

theorem Moment.Coherent.next (hhost : host.Honest) (h : now.Coherent past)
    (hnext : now.Next host e later) (hown : Past.OwnContexts ((now, e) :: past)) :
    later.Coherent ((now, e) :: past) := by
  obtain ⟨hgrows, hmachine⟩ := h.machine_next hhost hnext
  refine ⟨hmachine, ?_, ?_⟩
  · rintro ctx c rfl
    exact h.config_next hhost hnext hown
  intro ctx hctx v hv
  suffices hlive : v.Live now.machine.store from hlive.mono hgrows
  rcases hctx with rfl | ⟨before, c, e', hmem, hcase⟩
  · cases hv
  rcases List.mem_cons.mp hmem with hnow | hold
  · cases hnow
    have hstack := (h.config before c rfl).state.stack
    rcases hcase with rfl | ⟨result, rfl⟩
    · exact hstack v hv
    · cases hnext with
      | finish hresult hfinish =>
        obtain ⟨-, -, rfl⟩ := Config.control_of_result? hresult
        rw [(Machine.finish_context hfinish).1] at hv
        exact hstack v hv
  · exact h.visited ctx (.inr ⟨before, c, e', hold, hcase⟩) v hv

theorem Moment.Coherent.first {m : Machine} (h : m.Coherent) : (Moment.rest m).Coherent [] := by
  refine ⟨h, ?_, ?_⟩
  · rintro ctx c ⟨⟩
  · rintro ctx (rfl | ⟨_, _, _, hmem, -⟩)
    · exact List.forall_mem_nil _
    · cases hmem

theorem Life.coherent (hhost : host.Honest) (h : Life host past now)
    (hown : Past.OwnContexts past) : now.Coherent past := by
  induction h with
  | init argv => exact .first (.init argv)
  | next hlife hnext ih => exact (ih hown.tail).next hhost hnext hown

end Life
end StackVM
