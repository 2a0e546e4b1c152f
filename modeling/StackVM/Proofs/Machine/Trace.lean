import StackVM.Proofs.Machine.Reach

/-! # Traces of runs

A trace lists the configurations that a run leaves on its way from one point to another, so what is
said of a stretch of a run is said of the members of its trace. Here are the conditions that matter
for the context: natives that go on with the next step, whether one of them empties the context,
and the contexts that a host can have at all.
-/
namespace StackVM

/-- The native empties the context before it is done or waits for a call. -/
def Action.Resets : Action → State → Prop
  | .done _, _ => False
  | .fault _, _ => False
  | .edit e resume, s =>
    let (v, s) := s.withStore (·.apply e)
    (resume v).Resets s
  | .call (.func _) _ _, _ => False
  | .call found _ resume, s =>
    let (exception, s) := s.withStore (·.notCallable found)
    (resume (.ok (.exception exception)) s).Resets s
  | .define native resume, s =>
    let (index, m) := s.machine.defineNative native
    (resume index).Resets { s with machine := m }
  | .reset _, _ => True

/-- What a native does once a call it made has been answered. -/
abbrev Resume := Except Fault MethodResult → State → Action

namespace Config

inductive Trace (host : Host) : Config → List Config → Config → Prop
  | refl (c : Config) : Trace host c [] c
  | cons {c d e : Config} {cs : List Config} :
      step host c = some d → Trace host d cs e → Trace host c (c :: cs) e

/-- The native that waits on top of the pending work gets its answer with the next step, in the
given state. -/
inductive Replies : Config → Except Fault MethodResult → State → Resume → List Pending → Prop
  | settled {result : MethodResult} {args : List Value} {resume : Resume} {rest : List Pending}
      {s : State} :
      Replies ⟨.dispatched (.ok (.settled result)), .native args resume :: rest, s⟩
        (.ok result) s resume rest
  | failed {f : Fault} {args : List Value} {resume : Resume} {rest : List Pending} {s : State} :
      Replies ⟨.dispatched (.error f), .native args resume :: rest, s⟩ (.error f) s resume rest
  | crowded {r : ClosureRef} {f : Fault} {args : List Value} {resume : Resume}
      {rest : List Pending} {s s' : State} :
      Exec.pushFrame (s.machine.store.closure r).entry (s.machine.store.closure r) args
        (s.machine.store.closure r).entry s.context.sp s = .error f s' →
      Replies ⟨.dispatched (.ok (.enter r)), .native args resume :: rest, s⟩
        (.error f) s' resume rest
  | ended {base : Base} {savedSp entry : Nat} {result : Except Fault Exit} {resume : Resume}
      {rest : List Pending} {s : State} :
      Replies ⟨.exited result, .nested base savedSp entry resume :: rest, s⟩
        (finishRun base savedSp entry s result).1 (finishRun base savedSp entry s result).2
        resume rest

/-- A native goes on with the next step, over the work that waits below it and in this state. -/
inductive Resumes (host : Host) : Config → Action → List Pending → State → Prop
  | start {r : NativeRef} {run : State → List Value → Action} {args : List Value}
      {pending : List Pending} {s : State} :
      (s.machine.store.native r).code.body host = .contextual run →
      Resumes host ⟨.dispatch (.native r) args, pending, s⟩ (run s args) pending s
  | reply {c : Config} {answer : Except Fault MethodResult} {s : State} {resume : Resume}
      {rest : List Pending} :
      Replies c answer s resume rest → Resumes host c (resume answer s) rest s

/-- The native over this pending work still waits for the answer to a call. -/
def Waits (rest : List Pending) (c : Config) : Prop :=
  rest.length < c.pending.length ∧ ∀ answer s resume, ¬ Replies c answer s resume rest

/-- A native empties the context with the next step. -/
def Resets (host : Host) (c : Config) : Prop :=
  ∃ a rest s, Resumes host c a rest s ∧ a.Resets s

/-- The run over this pending work has come to its end. -/
def Ended (rest : List Pending) (c : Config) : Prop :=
  c.pending = rest ∧ ∃ result, c.control = .exited result

variable {host : Host} {c d e : Config} {cs cs' : List Config}

theorem Trace.append (h : Trace host c cs d) (h' : Trace host d cs' e) :
    Trace host c (cs ++ cs') e := by
  induction h with
  | refl => exact h'
  | cons hstep _ ih => exact .cons hstep (ih h')

theorem Trace.reaches (h : Trace host c cs d) : Reaches host c d := by
  induction h with
  | refl => exact .refl host _
  | cons hstep _ ih => exact Relation.ReflTransGen.head hstep ih

theorem Reaches.exists_trace (h : Reaches host c d) : ∃ cs, Trace host c cs d := by
  induction h using Relation.ReflTransGen.head_induction_on with
  | refl => exact ⟨[], .refl d⟩
  | head hstep _ ih =>
    obtain ⟨cs, hcs⟩ := ih
    exact ⟨_ :: cs, .cons hstep hcs⟩

theorem step_of_result? {r : Except Fault Exit} {s : State} (h : c.result? = some (r, s)) :
    step host c = none := by
  obtain ⟨hcontrol, hpending, -⟩ := control_of_result? h
  simp [step, hcontrol, hpending]

theorem Trace.run {r : Except Fault Exit} {s : State} (h : Trace host c cs d)
    (hd : d.result? = some (r, s)) : Config.run host (cs.length + 1) c = some (r, s) := by
  induction h with
  | refl => simp [Config.run, hd]
  | @cons c _ _ _ hstep _ ih =>
    cases hresult : c.result? with
    | none => simpa [Config.run, hresult, hstep] using ih hd
    | some out =>
      have hend : step host c = none := step_of_result? hresult
      simp [hstep] at hend

/-- The configurations that a run leaves in at most `n` steps, and the one it comes to. -/
def path (host : Host) : Nat → Config → List Config × Config
  | 0, c => ([], c)
  | n + 1, c =>
    match step host c with
    | none => ([], c)
    | some d =>
      let (cs, e) := path host n d
      (c :: cs, e)

theorem trace_path (host : Host) (n : Nat) (c : Config) :
    Trace host c (path host n c).1 (path host n c).2 := by
  induction n generalizing c with
  | zero => exact .refl c
  | succ n ih =>
    unfold path
    split
    next => exact .refl c
    next d hstep => exact .cons hstep (ih d)

theorem path_add (host : Host) (m n : Nat) (c : Config) :
    (path host (m + n) c).2 = (path host n (path host m c).2).2 := by
  induction m generalizing c with
  | zero => rw [Nat.zero_add, path]
  | succ m ih =>
    rw [Nat.succ_add, path, path]
    cases hstep : step host c with
    | none =>
      cases n with
      | zero => rfl
      | succ n => simp only [path, hstep]
    | some d => exact ih d

theorem step_path {n : Nat} (h : (step host (path host n c).2).isSome = true) :
    step host (path host n c).2 = some (path host (n + 1) c).2 := by
  obtain ⟨d, hd⟩ := Option.isSome_iff_exists.mp h
  rw [path_add, path, hd]
  rfl

theorem Trace.split {x : Config} (h : Trace host c (cs ++ x :: cs') d) :
    Trace host c cs x ∧ ∃ y, step host x = some y ∧ Trace host y cs' d := by
  induction cs generalizing c with
  | nil =>
    cases h with
    | cons hstep hrest => exact ⟨.refl _, _, hstep, hrest⟩
  | cons z cs ih =>
    cases h with
    | cons hstep hrest =>
      obtain ⟨hfirst, hlast⟩ := ih hrest
      exact ⟨.cons hstep hfirst, hlast⟩

theorem Trace.after {x y : Config} (h : Trace host c cs d) (hx : x ∈ cs)
    (hstep : step host x = some y) : ∃ cs', Trace host y cs' d ∧ cs' <:+ cs := by
  obtain ⟨cs₁, cs₂, rfl⟩ := List.append_of_mem hx
  obtain ⟨-, _, hstep', hrest⟩ := h.split
  cases hstep'.symm.trans hstep
  exact ⟨cs₂, hrest, (List.suffix_cons x cs₂).trans (List.suffix_append _ _)⟩

theorem Trace.mem_or_eq {x y : Config} (h : Trace host c cs d) (hx : x ∈ cs)
    (hstep : step host x = some y) : y ∈ cs ∨ y = d := by
  obtain ⟨cs', hrest, hsuffix⟩ := h.after hx hstep
  cases hrest with
  | refl => exact .inr rfl
  | cons => exact .inl (hsuffix.subset List.mem_cons_self)

theorem Trace.not_ended {x : Config} (h : Trace host c cs d) (hx : x ∈ cs) : ¬ x.Ended [] := by
  rintro ⟨hpending, result, hcontrol⟩
  obtain ⟨cs₁, cs₂, rfl⟩ := List.append_of_mem hx
  obtain ⟨-, y, hstep, -⟩ := h.split
  simp [step, hcontrol, hpending] at hstep

theorem Trace.exists_last (h : Trace host c cs d) (hcs : cs ≠ []) :
    ∃ xs x, cs = xs ++ [x] ∧ Trace host c xs x ∧ step host x = some d := by
  obtain ⟨xs, x, rfl⟩ : ∃ xs x, cs = xs ++ [x] :=
    ⟨cs.dropLast, cs.getLast hcs, (List.dropLast_concat_getLast hcs).symm⟩
  obtain ⟨hfirst, y, hstep, hrest⟩ := h.split
  cases hrest
  exact ⟨xs, x, rfl, hfirst, hstep⟩

/-- The invariant principle of traces: a step only has to keep what holds at a member of the trace
that meets the side condition. What is kept may speak of the configurations left so far. -/
theorem Trace.induct {I : List Config → Config → Prop} {P : Config → Prop}
    (h : Trace host c cs d) (hc : I [] c) (hP : ∀ x ∈ cs, P x)
    (hstep : ∀ xs x y, P x → I xs x → step host x = some y → I (xs ++ [x]) y) : I cs d := by
  suffices hfrom : ∀ ys, I ys c → I (ys ++ cs) d from hfrom [] hc
  clear hc
  induction h with
  | refl =>
    intro ys hys
    rw [List.append_nil]
    exact hys
  | cons hfirst _ ih =>
    intro ys hys
    obtain ⟨hx, hrest⟩ := List.forall_mem_cons.mp hP
    rw [List.append_cons]
    exact ih hrest _ (hstep ys _ _ hx hys hfirst)

theorem Replies.waits {answer : Except Fault MethodResult} {s : State} {resume : Resume}
    {rest : List Pending} (h : Replies c answer s resume rest) :
    rest.length < c.pending.length := by
  cases h with
  | settled | failed | crowded | ended => exact Nat.lt_succ_self _

theorem step_of_replies {answer : Except Fault MethodResult} {s : State} {resume : Resume}
    {rest : List Pending} (h : Replies c answer s resume rest) :
    step host c = some (act rest (resume answer s) s) := by
  cases h with
  | settled => rfl
  | failed => rfl
  | crowded hfull =>
    unfold step deliver runClosure
    dsimp only
    rw [hfull]
  | ended => rfl

theorem step_of_resumes {a : Action} {rest : List Pending} {s : State}
    (h : Resumes host c a rest s) : step host c = some (act rest a s) := by
  cases h with
  | start hrun =>
    unfold step dispatch
    dsimp only
    rw [hrun]
  | reply hreply => exact step_of_replies hreply

end Config

/-- The run from `entry` passes the configurations in the list, and this is what it leaves. -/
def Machine.Runs (host : Host) (m : Machine) (ctx : Context) (entry : Nat) (cs : List Config)
    (result : Except Fault Outcome) (m' : Machine) (ctx' : Context) : Prop :=
  ∃ c exit s, Config.Trace host (m.runConfig ctx entry) cs c ∧ c.result? = some (exit, s) ∧
    finish ctx.handlerCount exit s = (result, m', ctx')

theorem Machine.exists_runs_iff {host : Host} {m m' : Machine} {ctx ctx' : Context} {entry : Nat}
    {result : Except Fault Outcome} :
    (∃ cs, m.Runs host ctx entry cs result m' ctx') ↔
      ∃ fuel, m.run host fuel ctx entry = some (result, m', ctx') := by
  constructor
  · rintro ⟨cs, c, exit, s, htrace, hresult, hfinish⟩
    have hrun := htrace.run hresult
    exact ⟨cs.length + 1, by simp [Machine.run, hrun, hfinish]⟩
  · rintro ⟨fuel, hrun⟩
    obtain ⟨⟨exit, s⟩, hexit, hfinish⟩ := Option.map_eq_some_iff.mp hrun
    obtain ⟨c, hreaches, hresult⟩ := Config.exists_reaches_of_run hexit
    obtain ⟨cs, htrace⟩ := hreaches.exists_trace
    exact ⟨cs, c, exit, s, htrace, hresult, hfinish⟩

/-- A path to the end of a run, and what the run leaves besides the machine. -/
theorem Machine.exists_runs_of_path (host : Host) (m : Machine) (ctx : Context) (entry n : Nat)
    {result : Except Fault Outcome} {ctx' : Context}
    (h : ((Config.path host n (m.runConfig ctx entry)).2.result?.map fun (exit, s) =>
      finish ctx.handlerCount exit s).map (fun (result, _, ctx) => (result, ctx)) =
        some (result, ctx')) :
    ∃ m', m.Runs host ctx entry (Config.path host n (m.runConfig ctx entry)).1 result m' ctx' := by
  obtain ⟨⟨_, m', _⟩, hfinish, hout⟩ := Option.map_eq_some_iff.mp h
  obtain ⟨⟨exit, s⟩, hresult, hfinish⟩ := Option.map_eq_some_iff.mp hfinish
  cases hout
  exact ⟨m', _, exit, s, Config.trace_path host n _, hresult, hfinish⟩

/-- A context is new, or a run of some machine came by it or left it. A reset context is as good as
a new one. -/
inductive Context.Reachable (host : Host) : Context → Prop
  | new : Reachable host .new
  | during {m : Machine} {ctx : Context} {entry : Nat} {c : Config} :
      Reachable host ctx → (m.runConfig ctx entry).Reaches host c →
      Reachable host c.state.context
  | after {m m' : Machine} {ctx ctx' : Context} {fuel entry : Nat}
      {result : Except Fault Outcome} :
      Reachable host ctx → m.run host fuel ctx entry = some (result, m', ctx') →
      Reachable host ctx'

theorem Context.Reachable.of_run {host : Host} {ctx ctx' : Context} (h : ctx.Reachable host)
    (m : Machine) (fuel entry : Nat)
    (hrun : (m.run host fuel ctx entry).map (·.2.2) = some ctx') : ctx'.Reachable host := by
  obtain ⟨⟨result, m', _⟩, hout, rfl⟩ := Option.map_eq_some_iff.mp hrun
  exact .after h hout

end StackVM
