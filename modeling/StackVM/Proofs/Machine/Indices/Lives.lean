import StackVM.Proofs.Machine.Indices.Operations

/-! # Indices are for ever

A machine does nothing to its table of globals but the operations on it, so the indices hold in the
whole life of a machine. Values are compared as they are stored: an overload that is added to a
chain is added wherever that chain is stored.
-/
namespace StackVM

/-- The value that the global of a native holds once it is defined. -/
def Machine.registered (m : Machine) (native : Native) : Value :=
  let (index, globals) := m.globals.resolve native.name
  let (f, store) := m.store.newNative native
  (store.defineOverload ((globals.get? index).getD .undef) f native.name).1

theorem Machine.globals_defineNative (m : Machine) (native : Native) :
    (m.defineNative native).2.globals = (m.globals.define native.name (m.registered native)).2 :=
  rfl

/-- What a native does to the globals until it is done or waits for a call. -/
def Action.operations : Action → State → List Globals.Op
  | .done _, _ => []
  | .fault _, _ => []
  | .edit e resume, s =>
    let (v, s) := s.withStore (·.apply e)
    (resume v).operations s
  | .call (.func _) _ _, _ => []
  | .call found _ resume, s =>
    let (exception, s) := s.withStore (·.notCallable found)
    (resume (.ok (.exception exception)) s).operations s
  | .define native resume, s =>
    let (index, m) := s.machine.defineNative native
    .define native.name (s.machine.registered native) ::
      (resume index).operations { s with machine := m }
  | .reset resume, s => resume.operations { s with context := .new }

/-- What an instruction does to the globals. A name is resolved even if there is no room for its
index, and storing into a slot that is not in use does nothing. -/
def Instr.operations (s : State) : Instr → List Globals.Op
  | ⟨.resolveGlobal, _⟩ =>
    match s.context.stack with
    | .str name :: _ => [.resolve name]
    | _ => []
  | ⟨.storeGlobal, index⟩ =>
    match s.context.stack with
    | v :: _ => [.set index.toNat v]
    | [] => []
  | ⟨.defGlobalFun, index⟩ =>
    match s.machine.globals.get? index.toNat, s.context.stack with
    | some current, .func f :: _ =>
      let name := s.machine.globals.describe index.toNat
      [.get index.toNat, .set index.toNat (s.machine.store.defineOverload current f name).1]
    | _, _ => [.get index.toNat]
  | ⟨.fetchGlobal, index⟩ | ⟨.globalDefined, index⟩ => [.get index.toNat]
  | _ => []

/-- What the next step of a run does to the globals. -/
def Config.operations (host : Host) (c : Config) : List Globals.Op :=
  match c.control with
  | .run _ ip =>
    match c.state.machine.program.decodeAt ip with
    | .ok (i, _) => i.operations c.state
    | .error _ => []
  | _ =>
    match c.resumption? host with
    | some (a, s) => a.operations s
    | none => []

namespace Moment

/-- What an event does to the globals. -/
def operations (host : Host) : Moment → Event → List Globals.Op
  | now, .define native => [.define native.name (now.machine.registered native)]
  | _, .resolve name => [.resolve name]
  | _, .check name => [.check name]
  | .run _ c, .step => c.operations host
  | _, _ => []

/-- The second moment comes after the first one, whatever happens in between. -/
def Leads (host : Host) : Moment → Moment → Prop :=
  Relation.ReflTransGen fun now next => ∃ e, Next host now e next

end Moment

theorem Config.globals_act (p : List Pending) (a : Action) (s : State) :
    (act p a s).state.machine.globals = s.machine.globals.applyAll (a.operations s) := by
  induction a generalizing s with
  | done result => rfl
  | fault f => rfl
  | edit e resume ih => exact ih _ _
  | call callee args resume ih =>
    cases callee with
    | func f => rfl
    | _ => exact ih _ _ _
  | define native resume ih => exact ih _ { s with machine := _ }
  | reset resume ih => exact ih { s with context := .new }

theorem Exec.Spares.globals {α : Type} {x : Exec α} (h : Spares x) (s : State) :
    (x.left s).machine.globals = s.machine.globals := by
  obtain ⟨st, hst⟩ := h s
  rw [hst]

theorem Exec.Spares.globals_error {α : Type} {x : Exec α} {s s' : State} {f : Fault}
    (h : Spares x) (hx : x s = .error f s') : s'.machine.globals = s.machine.globals := by
  rw [← h.globals s, left_eq_of_error hx]

theorem Exec.Spares.globals_ok {α : Type} {x : Exec α} {s s' : State} {a : α}
    (h : Spares x) (hx : x s = .ok a s') : s'.machine.globals = s.machine.globals := by
  rw [← h.globals s, left_eq_of_ok hx]

theorem Exec.patch_globals (pos : Nat) (target : UInt16) (s : State) :
    ((patch pos target).left s).machine.globals = s.machine.globals := by
  rcases @patch_left pos target s with hsame | ⟨-, -, index, q, -, hmachine⟩
  · rw [hsame]
  · rw [hmachine]

theorem Exec.instr_globals {base : Base} {pos next : Nat} (i : Instr) (s : State) :
    ((instr base pos next i).left s).machine.globals =
      s.machine.globals.applyAll (i.operations s) := by
  obtain ⟨op, x⟩ := i
  cases op with
  | resolveGlobal =>
    change ((resolveGlobal pos).left s).machine.globals = _
    rw [resolveGlobal_left]
    simp only [Instr.operations]
    cases s.context.stack with
    | nil => rfl
    | cons v below => cases v <;> rfl
  | storeGlobal =>
    change ((storeGlobal pos x.toNat).left s).machine.globals = _
    rw [storeGlobal_left]
    simp only [Instr.operations]
    cases s.context.stack <;> rfl
  | defGlobalFun =>
    obtain ⟨st, hst⟩ := @defGlobalFun_left pos x.toNat s
    change ((defGlobalFun pos x.toNat).left s).machine.globals = _
    rw [hst]
    simp only [Instr.operations]
    cases s.machine.globals.get? x.toNat with
    | none => rfl
    | some current =>
      cases s.context.stack with
      | nil => rfl
      | cons v below => cases v <;> rfl
  | patch => exact patch_globals pos x s
  | initDone =>
    change (if s.machine.phase = .linking then { s.machine with phase := .running }
      else s.machine).globals = _
    split <;> rfl
  | _ => exact (instr_spares rfl).globals s

namespace Config
variable {host : Host} {c d : Config}

theorem Replies.globals {answer : Except Fault MethodResult} {s : State} {resume : Resume}
    {rest : List Pending} (h : Replies c answer s resume rest) :
    s.machine.globals = c.state.machine.globals := by
  cases h with
  | settled | failed => rfl
  | crowded hpush => exact (Exec.pushFrame_spares _ _ _ _).globals_error hpush
  | ended => rw [finishRun_machine]

theorem globals_of_resumes {a : Action} {rest : List Pending} {s : State}
    (h : Resumes host c a rest s) (hstep : step host c = some d) :
    d.state.machine.globals = c.state.machine.globals.applyAll (a.operations s) := by
  rw [step_of_resumes h] at hstep
  cases hstep
  rw [globals_act]
  cases h with
  | start => rfl
  | reply hreply => rw [hreply.globals]

theorem dispatch_globals {callee : Function} {args : List Value} {p : List Pending} {s : State}
    (h : resumption? host ⟨.dispatch callee args, p, s⟩ = none) :
    (dispatch host callee args p s).state.machine.globals = s.machine.globals := by
  cases callee with
  | closure r =>
    simp only [dispatch]
    split <;> rfl
  | native r =>
    simp only [resumption?] at h
    simp only [dispatch]
    split
    next => rfl
    next hbody => simp [hbody] at h
  | chain r => rw [dispatch, tryNext_state]

theorem deliver_globals {result : Except Fault Dispatch} {work : Pending} {p : List Pending}
    {s : State} (h : resumption? host ⟨.dispatched result, work :: p, s⟩ = none)
    (hd : deliver result work p s = some d) :
    d.state.machine.globals = s.machine.globals := by
  unfold deliver at hd
  split at hd
  next => cases hd; rw [tryNext_state]
  next => cases hd; rw [tryNext_state]
  next => cases hd; rfl
  next => cases h
  next => cases h
  next r =>
    cases hd
    simp only [resumption?] at h
    unfold runClosure
    dsimp only
    split
    next hpush => exact (Exec.pushFrame_spares _ _ _ _).globals_ok hpush
    next hpush => simp [hpush] at h
  next => cases hd; rfl
  next =>
    cases hd
    rw [proceed_machine]
    exact (finishCall_spares _ _).globals s
  next => cases hd

theorem fetch_globals (base : Base) (ip : Nat) (p : List Pending) (s : State) :
    (fetch base ip p s).state.machine.globals =
      s.machine.globals.applyAll (operations host ⟨.run base ip, p, s⟩) := by
  simp only [fetch, operations]
  cases s.machine.program.decodeAt ip with
  | error e => rfl
  | ok found =>
    dsimp only
    rw [proceed_machine]
    exact Exec.instr_globals found.1 s

/-- What a step does to the globals. -/
theorem globals_of_step (hstep : step host c = some d) :
    d.state.machine.globals = c.state.machine.globals.applyAll (c.operations host) := by
  obtain ⟨control, p, s⟩ := c
  cases h : resumption? host ⟨control, p, s⟩ with
  | some found =>
    obtain ⟨rest, hresumes⟩ := resumption?_eq_some.mp h
    rw [globals_of_resumes hresumes hstep]
    cases control with
    | run => cases h
    | dispatch | dispatched | exited => simp only [operations, h]
  | none =>
    cases control with
    | run base ip =>
      cases hstep
      exact fetch_globals base ip p s
    | dispatch callee args =>
      cases hstep
      simp only [operations, h]
      exact dispatch_globals h
    | dispatched result =>
      simp only [operations, h]
      cases p with
      | nil => cases hstep
      | cons work rest => exact deliver_globals h hstep
    | exited result =>
      cases p with
      | nil => cases hstep
      | cons work rest =>
        cases work with
        | nested => cases h
        | call | overloads | native => cases hstep

end Config

theorem Machine.globals_startRun (m : Machine) : m.startRun.globals = m.globals := by
  unfold Machine.startRun
  split <;> rfl

theorem Machine.globals_endRun (m : Machine) : m.endRun.globals = m.globals := by
  unfold Machine.endRun
  split <;> rfl

theorem Moment.Next.globals {host : Host} {now later : Moment} {e : Event}
    (h : now.Next host e later) :
    later.machine.globals = now.machine.globals.applyAll (now.operations host e) := by
  cases h with
  | load | define | resolve | check => rfl
  | start m ctx entry => exact m.globals_startRun
  | step hstep => exact Config.globals_of_step hstep
  | @finish ctx ctx' c exit s result m hresult hfinish =>
    obtain ⟨-, -, rfl⟩ := Config.control_of_result? hresult
    change m.globals = c.state.machine.globals
    rw [Machine.finish_machine hfinish, Machine.globals_endRun]

theorem Machine.built_defineNatives {m : Machine} (h : m.globals.Built)
    (natives : List (String × Builtin)) :
    (natives.foldl (fun m (name, b) => (m.defineNative ⟨name, .builtin b⟩).2) m).globals.Built := by
  induction natives generalizing m with
  | nil => exact h
  | cons native natives ih =>
    apply ih
    rw [globals_defineNative]
    exact h.applyAll [.define native.1 _]

theorem Globals.built_defineTypes {g : Globals} (h : g.Built) (tags : List Tag) :
    (tags.foldl (fun g t => (g.define t.name (.type t)).2) g).Built := by
  induction tags generalizing g with
  | nil => exact h
  | cons t tags ih => exact ih (h.applyAll [.define t.name (.type t)])

theorem Machine.built_init (argv : List String) : (Machine.init argv).globals.Built := by
  apply Machine.built_defineNatives
  apply Globals.built_defineTypes
  exact ⟨[.define "ARGV" _, .define "ARGC" _], rfl⟩

theorem Life.built {host : Host} {past : Past} {now : Moment} (h : Life host past now) :
    now.machine.globals.Built := by
  induction h with
  | init argv => exact Machine.built_init argv
  | next _ hnext ih =>
    rw [hnext.globals]
    exact ih.applyAll _

theorem Moment.Leads.keeps {host : Host} {now later : Moment} (h : now.Leads host later) :
    now.machine.globals.Keeps later.machine.globals := by
  induction h with
  | refl => exact .refl _
  | tail _ hnext ih =>
    obtain ⟨e, hnext⟩ := hnext
    rw [hnext.globals]
    exact ih.trans (Globals.keeps_applyAll _ _)

/-- In a table that operations have built, names and indices belong to each other and the indices
in use are those below the size; a further operation adds a slot exactly if it is about a name that
is not present, and stores in no other slot than it is about; no number of further operations takes
away a name or moves it. The globals of a machine are built like this, at every moment of its life:
each event comes down to certain operations, and what happens later keeps all names in place. -/
theorem indices_permanent (host : Host) :
    (∀ ops : List Globals.Op, (Globals.empty.applyAll ops).Indexed ∧
      (∀ op : Globals.Op,
        op.Updates (Globals.empty.applyAll ops) (Globals.empty.applyAll (ops ++ [op]))) ∧
      ∀ more, (Globals.empty.applyAll ops).Keeps (Globals.empty.applyAll (ops ++ more))) ∧
    ∀ past now, Life host past now →
      (∃ ops, now.machine.globals = Globals.empty.applyAll ops) ∧ now.machine.globals.Indexed ∧
      (∀ e later, now.Next host e later →
        later.machine.globals = now.machine.globals.applyAll (now.operations host e)) ∧
      ∀ later, now.Leads host later → now.machine.globals.Keeps later.machine.globals := by
  constructor
  · intro ops
    refine ⟨Globals.Built.indexed ⟨ops, rfl⟩, fun op => ?_, fun more => ?_⟩
    · rw [Globals.applyAll_append]
      exact op.updates _
    · rw [Globals.applyAll_append]
      exact Globals.keeps_applyAll _ _
  · intro past now hlife
    exact ⟨hlife.built, hlife.built.indexed, fun _ _ hnext => hnext.globals,
      fun _ hlater => hlater.keeps⟩

/-- The name that a run has resolved keeps its index, whatever is loaded, defined or run later. -/
theorem indices_permanent_selfLinking :
    Machine.selfLinking.globals.check? "x" = none ∧ Machine.selfLinking.globals.size = 24 ∧
    ∃ past m, Life Host.none past (.rest m) ∧ m.globals.size = 25 ∧
      m.globals.name? 24 = some "x" ∧
      ∀ later, (Moment.rest m).Leads Host.none later →
        later.machine.globals.check? "x" = some 24 := by
  have hrun : (Machine.selfLinking.run Host.none 7 .new 0).map
      (fun out => (out.2.1.globals.size, out.2.1.globals.check? "x")) = some (25, some 24) := by
    decide +kernel
  obtain ⟨⟨result, m, ctx⟩, hout, hm⟩ := Option.map_eq_some_iff.mp hrun
  obtain ⟨hsize, hcheck⟩ := Prod.mk.inj hm
  obtain ⟨past, hloaded⟩ := Life.selfLinking
  obtain ⟨past', hlife⟩ := hloaded.run hout
  obtain ⟨-, hindexed, -, hkept⟩ := (indices_permanent Host.none).2 past' _ hlife
  exact ⟨by decide +kernel, by decide +kernel, past', m, hlife, hsize,
    (hindexed.name?_iff 24 "x").mpr hcheck,
    fun later hlater => (hkept later hlater).check? "x" 24 hcheck⟩

end StackVM
