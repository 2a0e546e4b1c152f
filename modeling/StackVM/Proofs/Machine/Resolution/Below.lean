import StackVM.Proofs.Machine.Trace

/-! # Work below a dispatch

A step looks at the newest piece of pending work only, so a dispatch takes the same steps whatever
waits for it. A run over more work that gets to this work has come to an end of its own first.
-/
namespace StackVM

namespace Config
variable {host : Host} {c d x z : Config} {p rest : List Pending} {s t : State}

/-- The same configuration with more work waiting below. -/
def above (c : Config) (rest : List Pending) : Config := { c with pending := c.pending ++ rest }

theorem act_above (p rest : List Pending) (a : Action) (s : State) :
    act (p ++ rest) a s = (act p a s).above rest := by
  induction a generalizing s with
  | done | fault => rfl
  | edit e resume ih => exact ih _ _
  | call callee args resume ih =>
    cases callee with
    | func f => rfl
    | _ => exact ih _ _ _
  | define native resume ih => exact ih _ _
  | reset resume ih => exact ih _

theorem tryNext_above (missing : Bool) (args : List Value) (fs : List Function) :
    tryNext missing args (p ++ rest) s fs = (tryNext missing args p s fs).above rest := by
  cases fs <;> rfl

theorem dispatch_above (f : Function) (args : List Value) :
    dispatch host f args (p ++ rest) s = (dispatch host f args p s).above rest := by
  cases f with
  | closure r =>
    simp only [dispatch]
    split <;> rfl
  | native r =>
    simp only [dispatch]
    split
    · rfl
    · exact act_above _ _ _ _
  | chain r => exact tryNext_above _ _ _

theorem proceed_above (base : Base) (pos next : Nat) (r : EStateM.Result Fault State Step) :
    proceed base pos next (p ++ rest) r = (proceed base pos next p r).above rest := by
  cases r with
  | error f t => rfl
  | ok step t =>
    cases step with
    | raise v =>
      simp only [proceed]
      split <;> rfl
    | _ => rfl

theorem fetch_above (base : Base) (ip : Nat) :
    fetch base ip (p ++ rest) s = (fetch base ip p s).above rest := by
  simp only [fetch]
  split
  · rfl
  · exact proceed_above _ _ _ _

theorem runClosure_above (r : ClosureRef) (args : List Value) (resume : Resume) :
    runClosure r args resume (p ++ rest) s = (runClosure r args resume p s).above rest := by
  simp only [runClosure]
  split
  · rfl
  · exact act_above _ _ _ _

theorem deliver_above (result : Except Fault Dispatch) (work : Pending) :
    deliver result work (p ++ rest) s = (deliver result work p s).map (·.above rest) := by
  unfold deliver
  split <;> simp [tryNext_above, act_above, runClosure_above, proceed_above, above]

/-- A configuration that is not at its end steps in the same way over more work. -/
theorem step_above (h : c.pending = [] → step host c ≠ none) (rest : List Pending) :
    step host (c.above rest) = (step host c).map (·.above rest) := by
  obtain ⟨control, p, s⟩ := c
  cases control with
  | run base ip => exact congrArg some (fetch_above base ip)
  | dispatch f args => exact congrArg some (dispatch_above f args)
  | dispatched result =>
    cases p with
    | nil => exact absurd rfl (h rfl)
    | cons work p => exact deliver_above result work
  | exited result =>
    cases p with
    | nil => exact absurd rfl (h rfl)
    | cons work p =>
      cases work with
      | nested base savedSp entry resume => exact congrArg some (act_above _ _ _ _)
      | call | overloads | native => rfl

theorem Reaches.above (h : Reaches host c d) (rest : List Pending) :
    Reaches host (c.above rest) (d.above rest) := by
  induction h with
  | refl => exact .refl host _
  | @tail x y _ hstep ih =>
    have hsteps : step host (x.above rest) = some (y.above rest) := by
      rw [step_above (fun _ => by simp [hstep]), hstep]
      rfl
    exact ih.tail hsteps

/-- A run that gets to the work below has come to its own end before. -/
theorem Reaches.exists_end (h : Reaches host (c.above rest) z)
    (hz : z.pending.length < rest.length) :
    ∃ d, Reaches host c d ∧ d.pending = [] ∧ step host d = none ∧ Reaches host (d.above rest) z := by
  generalize hx : c.above rest = x at h
  induction h using Relation.ReflTransGen.head_induction_on generalizing c with
  | refl =>
    subst hx
    rw [Config.above, List.length_append] at hz
    omega
  | @head x y hstep hrest ih =>
    subst hx
    by_cases hend : c.pending = [] ∧ step host c = none
    · exact ⟨c, .refl host c, hend.1, hend.2, .head hstep hrest⟩
    · rw [step_above fun hnil hnone => hend ⟨hnil, hnone⟩, Option.map_eq_some_iff] at hstep
      obtain ⟨d, hd, rfl⟩ := hstep
      obtain ⟨e, hreach, hnil, hnone, hover⟩ := ih rfl
      exact ⟨e, .head hd hreach, hnil, hnone, hover⟩

theorem reaches_iff_of_ended (hc : step host c = none) : Reaches host c z ↔ c = z := by
  constructor
  · intro h
    rcases h.cases_head with heq | ⟨d, hstep, -⟩
    · exact heq
    · cases hc.symm.trans hstep
  · rintro rfl
    exact .refl host c

theorem reaches_iff_of_step (hstep : step host c = some d) (hz : step host z = none) :
    Reaches host c z ↔ Reaches host d z := by
  refine ⟨fun h => ?_, .head hstep⟩
  rcases h.cases_head with rfl | ⟨d', hstep', hd'⟩
  · cases hz.symm.trans hstep
  · cases hstep.symm.trans hstep'
    exact hd'

theorem Reaches.eq_of_ended (h : Reaches host c d) (h' : Reaches host c x)
    (hd : step host d = none) (hx : step host x = none) : d = x := by
  have hunique : Relator.RightUnique fun c d => step host c = some d := fun _ _ _ hy hy' =>
    Option.some.inj (hy.symm.trans hy')
  rcases Relation.ReflTransGen.total_of_right_unique hunique h h' with hdx | hxd
  · exact (reaches_iff_of_ended hd).mp hdx
  · exact ((reaches_iff_of_ended hx).mp hxd).symm

end Config

/-- The dispatch of a function has this result, whatever waits for it. -/
def Resolves (host : Host) (args : List Value) (f : Function) (s : State)
    (result : Except Fault Dispatch) (t : State) : Prop :=
  ∀ pending, Config.Reaches host ⟨.dispatch f args, pending, s⟩ ⟨.dispatched result, pending, t⟩

section Resolves
variable {host : Host} {args : List Value} {f : Function} {s t : State}
  {result : Except Fault Dispatch}

theorem resolves_iff : Resolves host args f s result t ↔
    Config.Reaches host ⟨.dispatch f args, [], s⟩ ⟨.dispatched result, [], t⟩ :=
  ⟨fun h => h [], fun h pending => h.above pending⟩

theorem Resolves.unique {result' : Except Fault Dispatch} {t' : State}
    (h : Resolves host args f s result t) (h' : Resolves host args f s result' t') :
    result = result' ∧ t = t' := by
  cases (h []).eq_of_ended (h' []) rfl rfl
  exact ⟨rfl, rfl⟩

theorem resolves_of_dispatch (h : Config.dispatch host f args [] s = ⟨.dispatched result, [], t⟩) :
    Resolves host args f s result t :=
  resolves_iff.mpr (.single (congrArg some h))

theorem reaches_waiting_iff {work : Pending} {z : Config} (hz : z.pending = [])
    (hwork : ∀ result s, Config.step host ⟨.exited result, [work], s⟩ = none) :
    Config.Reaches host ⟨.dispatch f args, [work], s⟩ z ↔
      ∃ result t, Resolves host args f s result t ∧
        Config.Reaches host ⟨.dispatched result, [work], t⟩ z := by
  constructor
  · intro h
    obtain ⟨⟨control, p, t⟩, hreach, hnil, hnone, hover⟩ :=
      Config.Reaches.exists_end (c := ⟨.dispatch f args, [], s⟩) h (by simp [hz])
    obtain rfl : p = [] := hnil
    cases control with
    | run | dispatch => cases hnone
    | dispatched result => exact ⟨result, t, resolves_iff.mpr hreach, hover⟩
    | exited result =>
      cases (Config.reaches_iff_of_ended (hwork result t)).mp hover
      cases hz
  · rintro ⟨result, t, hresolves, hreach⟩
    exact (hresolves [work]).trans hreach

/-- A native that waits for a run gets to its turn when the run has ended. -/
theorem exists_exited_of_reaches {base b : Base} {ip savedSp entry : Nat} {resume : Resume}
    {z : Config} (hz : z.pending = [])
    (h : Config.Reaches host ⟨.run b ip, [.nested base savedSp entry resume], s⟩ z) :
    ∃ exit t, Config.Reaches host ⟨.exited exit, [.nested base savedSp entry resume], t⟩ z := by
  obtain ⟨⟨control, p, t⟩, -, hnil, hnone, hover⟩ :=
    Config.Reaches.exists_end (c := ⟨.run b ip, [], s⟩) h (by simp [hz])
  obtain rfl : p = [] := hnil
  cases control with
  | run | dispatch => cases hnone
  | exited exit => exact ⟨exit, t, hover⟩
  | dispatched result =>
    cases (Config.reaches_iff_of_ended rfl).mp hover
    cases hz

theorem exists_reply_of_reaches {resume : Resume}
    (h : Config.Reaches host ⟨.dispatch f args, [.native args resume], s⟩
      ⟨.dispatched result, [], t⟩) :
    ∃ reply u, Config.Reaches host (Config.act [] (resume reply u) u)
      ⟨.dispatched result, [], t⟩ := by
  obtain ⟨answer, u, -, hanswer⟩ := (reaches_waiting_iff rfl fun _ _ => rfl).mp h
  rcases answer with fault | reply | c
  · exact ⟨.error fault, u, (Config.reaches_iff_of_step rfl rfl).mp hanswer⟩
  · exact ⟨.ok reply, u, (Config.reaches_iff_of_step rfl rfl).mp hanswer⟩
  · have hclosure : Config.Reaches host (Config.runClosure c args resume [] u)
        ⟨.dispatched result, [], t⟩ := (Config.reaches_iff_of_step rfl rfl).mp hanswer
    unfold Config.runClosure at hclosure
    dsimp only at hclosure
    split at hclosure
    · obtain ⟨exit, u', hexited⟩ := exists_exited_of_reaches rfl hclosure
      exact ⟨_, _, (Config.reaches_iff_of_step rfl rfl).mp hexited⟩
    · exact ⟨_, _, hclosure⟩

end Resolves

end StackVM
