import StackVM.Proofs.Machine.Capture.Extension

/-! # Local variables in a life

In every moment of a life all references to local variables are to ones that exist. So the variables
of a new frame are known to nobody else, and an assignment is seen through all paths to its cell and
through no others.
-/
namespace StackVM

/-- A new context, or one that a run of this life came by or left. -/
def Past.Visits (past : Past) (ctx : Context) : Prop :=
  ctx = .new ∨ ∃ before c e, (Moment.run before c, e) ∈ past ∧
    (c.state.context = ctx ∨ ∃ result, e = .finish result ctx)

/-- The host starts runs on contexts of this life only. -/
def Past.OwnContexts : Past → Prop
  | [] => True
  | (_, .start ctx _) :: past => Past.Visits past ctx ∧ OwnContexts past
  | _ :: past => OwnContexts past

/-- A frame or a closure of the moment refers to these local variables. -/
def Moment.Mentions (now : Moment) (r : LocalsRef) : Prop :=
  (∃ c ∈ now.machine.store.closures, r ∈ c.scope) ∨
    ∃ ctx c, now = .run ctx c ∧ ∃ f ∈ c.state.context.frames, r ∈ f.locals :: f.scope

/-- What has come to be in the past is still there, and nothing refers to more. -/
structure Moment.Scoped (host : Host) (past : Past) (now : Moment) : Prop where
  store : now.machine.store.Scoped
  context : ∀ ctx c, now = .run ctx c → c.state.context.Scoped c.state.machine.store
  visited : ∀ ctx, Past.Visits past ctx → ctx.Scoped now.machine.store
  mentioned : ∀ m e r, (m, e) ∈ past → m.Mentions r → r.id < now.machine.store.locals.size
  stepped : ∀ ctx c d, (.run ctx c, .step) ∈ past → Config.step host c = some d →
    d.state.machine.store.Extends now.machine.store

section Life
variable {host : Host} {past : Past} {now later : Moment} {e : Event}

theorem Moment.Scoped.lt_of_mentions (h : now.Scoped host past) {r : LocalsRef}
    (hr : now.Mentions r) : r.id < now.machine.store.locals.size := by
  rcases hr with ⟨c, hc, hmem⟩ | ⟨ctx, c, rfl, f, hf, hmem⟩
  · exact h.store c hc r hmem
  · exact (h.context ctx c rfl).known f hf r hmem

theorem Machine.store_startRun (m : Machine) : m.startRun.store = m.store := by
  unfold Machine.startRun
  split <;> rfl

theorem Machine.store_endRun (m : Machine) : m.endRun.store = m.store := by
  unfold Machine.endRun
  split <;> rfl

theorem Moment.Next.scopes (h : now.Next host e later) :
    now.machine.store.SameScopes later.machine.store ∨
      ∃ ctx c d, now = .run ctx c ∧ later = .run ctx d ∧ Config.step host c = some d := by
  cases h with
  | load => exact .inl (.refl _)
  | define m native => exact .inl (m.sameScopes_defineNative native)
  | resolve => exact .inl (.refl _)
  | check => exact .inl (.refl _)
  | start m ctx entry =>
    left
    have hstore : (m.runConfig ctx entry).state.machine.store = m.store := m.store_startRun
    simp only [Moment.machine, hstore]
    exact .refl _
  | step hstep => exact .inr ⟨_, _, _, rfl, rfl, hstep⟩
  | @finish ctx ctx' c exit s result m hresult hfinish =>
    obtain ⟨-, -, rfl⟩ := Config.control_of_result? hresult
    left
    simp only [Moment.machine, Machine.finish_machine hfinish, Machine.store_endRun]
    exact .refl _

theorem Moment.Next.extends (h : now.Next host e later) :
    now.machine.store.Extends later.machine.store := by
  rcases h.scopes with hsame | ⟨ctx, c, d, rfl, rfl, hstep⟩
  · exact .of_sameScopes hsame
  · exact (Config.varies_of_step hstep).extends

theorem Moment.Scoped.visits (h : now.Scoped host past) (hnext : now.Next host e later)
    {ctx : Context} (hctx : Past.Visits ((now, e) :: past) ctx) :
    ctx.Scoped later.machine.store := by
  rcases hctx with rfl | ⟨before, c, e', hmem, hcase⟩
  · exact .new _
  rcases List.mem_cons.mp hmem with hnow | hold
  · cases hnow
    have hc := h.context before c rfl
    rcases hcase with rfl | ⟨result, rfl⟩
    · exact hc.mono hnext.extends List.suffix_rfl
    · refine hc.mono hnext.extends ?_
      cases hnext with
      | finish hresult hfinish =>
        obtain ⟨-, -, rfl⟩ := Config.control_of_result? hresult
        exact (Machine.finish_context hfinish).2.1 ▸ List.suffix_rfl
  · refine (h.visited ctx (.inr ⟨before, c, e', hold, hcase⟩)).mono hnext.extends List.suffix_rfl

theorem Moment.Scoped.next (h : now.Scoped host past) (hnext : now.Next host e later)
    (hown : Past.OwnContexts ((now, e) :: past)) : later.Scoped host ((now, e) :: past) := by
  have hstore : later.machine.store.Scoped ∧
      ∀ ctx c, later = .run ctx c → c.state.context.Scoped c.state.machine.store := by
    rcases hnext.scopes with hsame | ⟨ctx, c, d, rfl, rfl, hstep⟩
    · refine ⟨h.store.of_sameScopes hsame, ?_⟩
      rintro ctx c rfl
      cases hnext with
      | start m _ entry => exact (h.visited ctx hown.1).mono (.of_sameScopes hsame) List.suffix_rfl
      | step hstep =>
        exact ((Config.varies_of_step hstep).scoped h.store (h.context _ _ rfl)).2
    · obtain ⟨hs, hctx⟩ := (Config.varies_of_step hstep).scoped h.store (h.context ctx c rfl)
      refine ⟨hs, ?_⟩
      rintro _ _ hlater
      cases hlater
      exact hctx
  refine ⟨hstore.1, hstore.2, fun ctx hctx => h.visits hnext hctx, ?_, ?_⟩
  · intro m e' r hmem hr
    rcases List.mem_cons.mp hmem with hnow | hold
    · cases hnow
      exact Nat.lt_of_lt_of_le (h.lt_of_mentions hr) hnext.extends.size
    · exact Nat.lt_of_lt_of_le (h.mentioned m e' r hold hr) hnext.extends.size
  · intro ctx c d hmem hstep
    rcases List.mem_cons.mp hmem with hnow | hold
    · cases hnow
      cases hnext with
      | step hstep' =>
        rw [hstep] at hstep'
        cases hstep'
        exact .refl _
    · exact (h.stepped ctx c d hold hstep).trans hnext.extends

theorem Machine.sameScopes_init (argv : List String) :
    Store.empty.SameScopes (Machine.init argv).store := by
  have hfold : ∀ (f : Machine → String × Builtin → Machine),
      (∀ (m : Machine) entry, m.store.SameScopes (f m entry).store) →
      ∀ (table : List (String × Builtin)) (m : Machine),
        m.store.SameScopes (table.foldl f m).store := by
    intro f hf table
    induction table with
    | nil => exact fun m => .refl _
    | cons entry table ih => exact fun m => (hf m entry).trans (ih _)
  simp only [Machine.init, Store.newArr]
  apply Store.SameScopes.trans _ (hfold _ _ _ _)
  · exact ⟨rfl, rfl⟩
  · exact fun m entry => m.sameScopes_defineNative _

theorem Past.OwnContexts.tail (h : Past.OwnContexts ((now, e) :: past)) :
    Past.OwnContexts past := by
  cases e with
  | start ctx entry => exact h.2
  | _ => exact h

theorem Moment.Scoped.first (host : Host) {m : Machine} (h : m.store.Scoped) :
    (Moment.rest m).Scoped host [] := by
  constructor
  case store => exact h
  case context =>
    intro ctx c hrun
    cases hrun
  case visited =>
    rintro ctx (rfl | ⟨_, _, _, hmem, -⟩)
    · exact .new _
    · cases hmem
  case mentioned =>
    intro m e r hmem
    cases hmem
  case stepped =>
    intro ctx c d hmem
    cases hmem

/-- The invariant of lives. -/
theorem Life.scoped (h : Life host past now) (hown : Past.OwnContexts past) :
    now.Scoped host past := by
  induction h with
  | init argv =>
    have hempty : Store.empty.Scoped := fun c hc => by simp [Store.empty] at hc
    exact .first host (hempty.of_sameScopes (Machine.sameScopes_init argv))
  | next hlife hnext ih => exact (ih hown.tail).next hnext hown

end Life

section Cells
variable {st st' : Store} {s s' : State} {f g : Frame} {k : Cell} {v : Value}

theorem Frame.home?_mem {a : Address} {r : LocalsRef} (h : f.home? a = some r) :
    r ∈ f.locals :: f.scope := by
  cases a with
  | own slot =>
    cases h
    exact List.mem_cons_self
  | captured var => exact List.mem_cons_of_mem _ (List.mem_of_getElem? h)

theorem Store.Extends.cell? (h : st.Extends st')
    (hf : ∀ r ∈ f.locals :: f.scope, r.id < st.locals.size) (a : Address) :
    f.cell? st' a = f.cell? st a := by
  unfold Frame.cell?
  cases hhome : f.home? a with
  | none => rfl
  | some r =>
    have hlength := h.lengths r (hf r (Frame.home?_mem hhome))
    simp [Option.filter, Store.content?, hlength]

theorem State.Assigned.content? (h : s.Assigned k v s')
    (hk : (s.machine.store.content? k).isSome = true) (k' : Cell) :
    s'.machine.store.content? k' = if k' = k then some v else s.machine.store.content? k' := by
  rw [← Store.content?_setSlot hk]
  exact Store.content?_congr h.locals k'

theorem State.Assigned.read? (h : s.Assigned k v s')
    (hk : (s.machine.store.content? k).isSome = true) (g : Frame) (a : Address) :
    g.read? s'.machine.store a =
      if g.cell? s.machine.store a = some k then some v else g.read? s.machine.store a := by
  have hcell : g.cell? s'.machine.store a = g.cell? s.machine.store a := by
    unfold Frame.cell?
    congr 1
    funext k'
    rw [h.content? hk]
    split
    next heq => rw [heq, hk, Option.isSome_some]
    next => rfl
  unfold Frame.read?
  rw [hcell]
  cases g.cell? s.machine.store a with
  | none => simp
  | some k' => simp [h.content? hk]

theorem State.Entered.content? {r : ClosureRef} (h : s.Entered r g s')
    (hk : s.machine.store.content? k = some v) : s'.machine.store.content? k = some v := by
  obtain ⟨slots, hlocals⟩ := h.locals
  have hscope : k.scope.id < s.machine.store.locals.size := by
    by_contra hge
    simp [Store.content?, Store.slots, Nat.le_of_not_lt hge] at hk
  rw [← hk]
  simp [Store.content?, Store.slots, hlocals, Array.getElem?_push_lt, hscope]

/-- The content of a cell stays as it is, or the step assigns to the cell. -/
theorem Config.Varies.content? {c d : Config} (h : c.Varies d)
    (hk : c.state.machine.store.content? k = some v) :
    d.state.machine.store.content? k = some v ∨
      ∃ i a f fs, c.Fetches i ∧ i.assigns? = some a ∧ c.state.context.frames = f :: fs ∧
        f.cell? c.state.machine.store a = some k := by
  cases h with
  | keep hkeeps => exact .inl ((Store.content?_congr hkeeps.store.locals k).trans hk)
  | @assign i a f fs k' w hfetches hi hframes hcell hassigned =>
    by_cases hsame : k = k'
    · subst hsame
      exact .inr ⟨i, a, f, fs, hfetches, hi, hframes, hcell⟩
    · left
      rw [hassigned.content? (Frame.cell?_eq_some_iff.mp hcell).2.2, if_neg hsame]
      exact hk
  | capture _ hcaptured => exact .inl ((Store.content?_congr hcaptured.locals k).trans hk)
  | enter _ hentered => exact .inl (hentered.content? hk)

end Cells

end StackVM
