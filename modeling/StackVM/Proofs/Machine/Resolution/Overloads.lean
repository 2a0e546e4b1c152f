import StackVM.Proofs.Machine.Resolution.Below

/-! # Choosing an overload

A chain is taken apart: its overloads are dispatched one after another, from the newest one on,
until one of them does not fail.
-/
namespace StackVM

/-- Why a dispatch failed, if it did. -/
def Dispatch.failure? : Except Fault Dispatch → Option Failure
  | .ok (.settled (.failed why)) => some why
  | _ => none

theorem Dispatch.eq_failed {result : Except Fault Dispatch} {why : Failure}
    (h : failure? result = some why) : result = .ok (.settled (.failed why)) := by
  unfold failure? at h
  split at h
  · cases h
    rfl
  · cases h

namespace Failure

/-- A missing implementation outweighs a mismatch. -/
def among (whys : List Failure) : Failure :=
  if .implMissing ∈ whys then .implMissing else .argsMismatch

/-- The result after a failure: if there is another failure, one of them outweighs the other. -/
def before (why : Failure) : Except Fault Dispatch → Except Fault Dispatch
  | .ok (.settled (.failed why')) => .ok (.settled (.failed (among [why, why'])))
  | result => result

theorem before_failed (why : Failure) (whys : List Failure) :
    why.before (.ok (.settled (.failed (among whys)))) =
      .ok (.settled (.failed (among (why :: whys)))) := by
  cases why <;> simp [before, among]

theorem before_argsMismatch (result : Except Fault Dispatch) :
    argsMismatch.before result = result := by
  unfold before
  split
  next why' => cases why' <;> rfl
  next => rfl

theorem before_before (why why' : Failure) (result : Except Fault Dispatch) :
    why.before (why'.before result) = (among [why, why']).before result := by
  rcases result with f | ⟨_ | why'' | _⟩ | r
  case ok.settled.failed => cases why <;> cases why' <;> cases why'' <;> rfl
  all_goals rfl

theorem before_eq_failed {why why' : Failure} {result : Except Fault Dispatch}
    (h : why.before result = .ok (.settled (.failed why'))) :
    ∃ why'', result = .ok (.settled (.failed why'')) ∧ why' = among [why, why''] := by
  unfold before at h
  split at h
  next why'' =>
    cases h
    exact ⟨why'', rfl, rfl⟩
  next hnot => exact absurd h (hnot why')

theorem failure?_before {why : Failure} {result : Except Fault Dispatch} :
    Dispatch.failure? (why.before result) = none ↔ Dispatch.failure? result = none := by
  rcases result with f | ⟨_ | why' | _⟩ | r
  case ok.settled.failed => exact ⟨nofun, nofun⟩
  all_goals exact Iff.rfl

theorem before_of_failure?_eq_none {why : Failure} {result : Except Fault Dispatch}
    (h : Dispatch.failure? result = none) : why.before result = result := by
  unfold before
  split
  · cases h
  · rfl

end Failure

/-- The functions are tried one after another, each in the state that the one before left, and all
of them fail. -/
inductive Declines (host : Host) (args : List Value) :
    List Function → State → List Failure → State → Prop
  | nil {s : State} : Declines host args [] s [] s
  | cons {f : Function} {fs : List Function} {s s' t : State} {why : Failure}
      {whys : List Failure} : Resolves host args f s (.ok (.settled (.failed why))) s' →
      Declines host args fs s' whys t → Declines host args (f :: fs) s (why :: whys) t

/-- The functions are tried one after another up to the first one that does not fail, and its result
is the result of all. Where all fail, the result is a missing implementation if one of them reports
that. -/
inductive Selects (host : Host) (args : List Value) (fs : List Function) (s : State) :
    Option Function → Except Fault Dispatch → State → Prop
  | answer {newer older : List Function} {f : Function} {whys : List Failure} {s' t : State}
      {result : Except Fault Dispatch} : fs = newer ++ f :: older →
      Declines host args newer s whys s' → Resolves host args f s' result t →
      Dispatch.failure? result = none → Selects host args fs s (some f) result t
  | exhausted {whys : List Failure} {t : State} : Declines host args fs s whys t →
      Selects host args fs s none (.ok (.settled (.failed (.among whys)))) t

section Selects
variable {host : Host} {args : List Value} {f : Function} {fs gs : List Function} {s t : State}
  {who : Option Function} {result : Except Fault Dispatch}

theorem selects_nil : Selects host args [] s who result t ↔
    who = none ∧ result = .ok (.settled (.failed .argsMismatch)) ∧ t = s := by
  constructor
  · rintro (⟨h, -⟩ | ⟨⟨⟩⟩)
    · simp at h
    · exact ⟨rfl, rfl, rfl⟩
  · rintro ⟨rfl, rfl, rfl⟩
    exact .exhausted .nil

theorem selects_cons : Selects host args (f :: fs) s who result t ↔
    (Resolves host args f s result t ∧ Dispatch.failure? result = none ∧ who = some f) ∨
      ∃ why s' result', Resolves host args f s (.ok (.settled (.failed why))) s' ∧
        Selects host args fs s' who result' t ∧ result = why.before result' := by
  constructor
  · rintro (⟨heq, hdeclines, hresolves, hnone⟩ | ⟨hdeclines⟩)
    · cases hdeclines with
      | nil =>
        cases heq
        exact .inl ⟨hresolves, hnone, rfl⟩
      | cons hfails hdeclines =>
        cases heq
        refine .inr ⟨_, _, _, hfails, .answer rfl hdeclines hresolves hnone, ?_⟩
        exact (Failure.before_of_failure?_eq_none hnone).symm
    · cases hdeclines with
      | cons hfails hdeclines =>
        exact .inr ⟨_, _, _, hfails, .exhausted hdeclines, (Failure.before_failed _ _).symm⟩
  · rintro (⟨hresolves, hnone, rfl⟩ | ⟨why, s', result', hfails, hselects, rfl⟩)
    · have hnewest : f :: fs = [] ++ f :: fs := rfl
      exact .answer hnewest .nil hresolves hnone
    · cases hselects with
      | answer heq hdeclines hresolves hnone =>
        rw [Failure.before_of_failure?_eq_none hnone]
        exact .answer (congrArg (f :: ·) heq) (.cons hfails hdeclines) hresolves hnone
      | exhausted hdeclines =>
        rw [Failure.before_failed]
        exact .exhausted (.cons hfails hdeclines)

theorem Selects.eq_none {why : Failure}
    (h : Selects host args fs s who (.ok (.settled (.failed why))) t) : who = none := by
  cases h with
  | answer _ _ _ hnone => cases hnone
  | exhausted => rfl

theorem selects_cons_of_mismatch
    (h : Resolves host args f s (.ok (.settled (.failed .argsMismatch))) s) :
    Selects host args (f :: fs) s who result t ↔ Selects host args fs s who result t := by
  rw [selects_cons]
  constructor
  · rintro (⟨hresolves, hnone, -⟩ | ⟨why, s', result', hfails, hselects, rfl⟩)
    · obtain ⟨rfl, -⟩ := hresolves.unique h
      cases hnone
    · obtain ⟨⟨⟩, rfl⟩ := hfails.unique h
      rwa [Failure.before_argsMismatch]
  · intro hselects
    exact .inr ⟨_, s, result, h, hselects, (Failure.before_argsMismatch result).symm⟩

/-- Functions are tried after others if these fail. -/
theorem selects_append : Selects host args (fs ++ gs) s who result t ↔
    (Selects host args fs s who result t ∧ Dispatch.failure? result = none) ∨
      ∃ why s' result', Selects host args fs s none (.ok (.settled (.failed why))) s' ∧
        Selects host args gs s' who result' t ∧ result = why.before result' := by
  induction fs generalizing s result with
  | nil =>
    constructor
    · intro h
      refine .inr ⟨_, s, result, selects_nil.mpr ⟨rfl, rfl, rfl⟩, h, ?_⟩
      exact (Failure.before_argsMismatch result).symm
    · rintro (⟨hnil, hnone⟩ | ⟨why, s', result', hnil, h, rfl⟩)
      · obtain ⟨-, rfl, -⟩ := selects_nil.mp hnil
        cases hnone
      · obtain ⟨-, ⟨⟩, rfl⟩ := selects_nil.mp hnil
        rwa [Failure.before_argsMismatch]
  | cons f fs ih =>
    rw [List.cons_append, selects_cons]
    constructor
    · rintro (⟨hresolves, hnone, rfl⟩ | ⟨why, s', result', hfails, hselects, rfl⟩)
      · exact .inl ⟨selects_cons.mpr (.inl ⟨hresolves, hnone, rfl⟩), hnone⟩
      · rcases ih.mp hselects with ⟨hselects, hnone⟩ | ⟨why', s'', result'', hnewer, holder, rfl⟩
        · rw [Failure.before_of_failure?_eq_none hnone]
          refine .inl ⟨selects_cons.mpr (.inr ⟨why, s', result', hfails, hselects, ?_⟩), hnone⟩
          exact (Failure.before_of_failure?_eq_none hnone).symm
        · refine .inr ⟨_, s'', result'', ?_, holder, Failure.before_before _ _ _⟩
          exact selects_cons.mpr (.inr ⟨why, s', _, hfails, hnewer, rfl⟩)
    · rintro (⟨hselects, hnone⟩ | ⟨why, s', result', hselects, holder, rfl⟩)
      · refine (selects_cons.mp hselects).imp_right ?_
        rintro ⟨why, s', result', hfails, hnewer, rfl⟩
        have hnone' := Failure.failure?_before.mp hnone
        exact ⟨why, s', result', hfails, ih.mpr (.inl ⟨hnewer, hnone'⟩), rfl⟩
      · rcases selects_cons.mp hselects with ⟨-, hnone, -⟩ | ⟨why', s'', newer, hfails, hnewer, heq⟩
        · cases hnone
        · obtain ⟨why'', rfl, rfl⟩ := Failure.before_eq_failed heq.symm
          have hrest := ih.mpr (.inr ⟨why'', s', result', hnewer, holder, rfl⟩)
          exact .inr ⟨why', s'', _, hfails, hrest, (Failure.before_before _ _ _).symm⟩

/-- What a chain knows before it tries the next overload. -/
def Failure.ofMissing (missing : Bool) : Failure := if missing then .implMissing else .argsMismatch

theorem Failure.before_ofMissing (missing : Bool) (why : Failure)
    (result : Except Fault Dispatch) :
    (ofMissing (missing || why = .implMissing)).before result =
      (ofMissing missing).before (why.before result) := by
  rw [before_before]
  cases missing <;> cases why <;> rfl

/-- A chain hands on what an overload answers, and goes on after a failure. -/
theorem reaches_overloads_iff {missing : Bool} {answer : Except Fault Dispatch} {u : State} :
    Config.Reaches host ⟨.dispatched answer, [.overloads fs missing args], u⟩
        ⟨.dispatched result, [], t⟩ ↔
      (Dispatch.failure? answer = none ∧ result = answer ∧ t = u) ∨
        ∃ why, answer = .ok (.settled (.failed why)) ∧
          Config.Reaches host (Config.tryNext (missing || why = .implMissing) args [] u fs)
            ⟨.dispatched result, [], t⟩ := by
  cases hfailure : Dispatch.failure? answer with
  | none =>
    have hstep : Config.step host ⟨.dispatched answer, [.overloads fs missing args], u⟩ =
        some ⟨.dispatched answer, [], u⟩ := by
      rcases answer with f | ⟨_ | _ | _⟩ | r
      case ok.settled.failed => cases hfailure
      all_goals rfl
    rw [Config.reaches_iff_of_step hstep rfl, Config.reaches_iff_of_ended rfl]
    constructor
    · rintro ⟨⟩
      exact .inl ⟨rfl, rfl, rfl⟩
    · rintro (⟨-, rfl, rfl⟩ | ⟨why, rfl, -⟩)
      · rfl
      · cases hfailure
  | some why =>
    obtain rfl := Dispatch.eq_failed hfailure
    have hstep : Config.step host
        ⟨.dispatched (.ok (.settled (.failed why))), [.overloads fs missing args], u⟩ =
        some (Config.tryNext (missing || why = .implMissing) args [] u fs) := by
      cases why <;> simp [Config.step, Config.deliver]
    rw [Config.reaches_iff_of_step hstep rfl]
    simp

/-- A chain goes through its overloads until one does not fail. -/
theorem reaches_tryNext_iff {missing : Bool} :
    Config.Reaches host (Config.tryNext missing args [] s fs) ⟨.dispatched result, [], t⟩ ↔
      ∃ who result', Selects host args fs s who result' t ∧
        result = (Failure.ofMissing missing).before result' := by
  induction fs generalizing s missing with
  | nil =>
    rw [Config.tryNext, Config.reaches_iff_of_ended rfl]
    constructor
    · rintro ⟨⟩
      exact ⟨none, _, selects_nil.mpr ⟨rfl, rfl, rfl⟩, by cases missing <;> rfl⟩
    · rintro ⟨who, result', hselects, rfl⟩
      obtain ⟨-, rfl, rfl⟩ := selects_nil.mp hselects
      cases missing <;> rfl
  | cons f fs ih =>
    rw [Config.tryNext, reaches_waiting_iff rfl fun _ _ => rfl]
    simp only [reaches_overloads_iff, ih, Failure.before_ofMissing]
    constructor
    · rintro ⟨answer, u, hresolves, ⟨hnone, rfl, rfl⟩ | ⟨why, rfl, who, result', hselects, rfl⟩⟩
      · refine ⟨some f, result, selects_cons.mpr (.inl ⟨hresolves, hnone, rfl⟩), ?_⟩
        exact (Failure.before_of_failure?_eq_none hnone).symm
      · exact ⟨who, _, selects_cons.mpr (.inr ⟨why, u, result', hresolves, hselects, rfl⟩), rfl⟩
    · rintro ⟨who, result', hselects, rfl⟩
      rcases selects_cons.mp hselects with ⟨hresolves, hnone, -⟩ | ⟨why, u, _, hfails, hrest, rfl⟩
      · exact ⟨result', t, hresolves, .inl ⟨hnone, Failure.before_of_failure?_eq_none hnone, rfl⟩⟩
      · exact ⟨_, u, hfails, .inr ⟨why, rfl, who, _, hrest, rfl⟩⟩

theorem resolves_chain_iff {r : ChainRef} : Resolves host args (.chain r) s result t ↔
    ∃ who, Selects host args (s.machine.store.chain r).overloads.reverse s who result t := by
  have hstep : Config.step host ⟨.dispatch (.chain r) args, [], s⟩ =
      some (Config.tryNext false args [] s (s.machine.store.chain r).overloads.reverse) := rfl
  rw [resolves_iff, Config.reaches_iff_of_step hstep rfl, reaches_tryNext_iff]
  simp [Failure.ofMissing, Failure.before_argsMismatch]

end Selects

end StackVM
