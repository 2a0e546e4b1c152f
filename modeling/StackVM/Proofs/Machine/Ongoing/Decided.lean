import StackVM.Proofs.Machine.Ongoing.Floor

/-! # Calls that can be computed

Whether a native empties the context, and with it whether a call keeps to the conditions under which
it is followed, can be computed from a trace.
-/
namespace StackVM

/-- Whether a native empties the context can be computed. -/
instance Action.decidableResets : (a : Action) → (s : State) → Decidable (a.Resets s)
  | .done _, _ | .fault _, _ => .isFalse id
  | .reset _, _ => .isTrue trivial
  | .edit _ resume, _ => decidableResets (resume _) _
  | .define _ resume, _ => decidableResets (resume _) _
  | .call callee _ resume, _ =>
    match callee with
    | .func _ => .isFalse id
    | .null | .bool _ | .int _ | .str _ | .arr _ | .type _ | .hash _ | .clib _ | .csym _ | .undef =>
      decidableResets (resume _ _) _

/-- The run has ended with a fault, or halted. -/
def Control.isAbrupt : Control → Bool
  | .exited (.error _) | .exited (.ok (.halted _)) => true
  | _ => false

namespace Config
variable {host : Host} {c d x y : Config} {cs : List Config}

/-- What the native does that goes on with the next step, and the state in which it does so. -/
def resumption? (host : Host) (c : Config) : Option (Action × State) :=
  match c.control, c.pending with
  | .dispatch (.native r) args, _ =>
    match (c.state.machine.store.native r).code.body host with
    | .contextual run => some (run c.state args, c.state)
    | .pure _ => none
  | .dispatched (.ok (.settled result)), .native _ resume :: _ =>
    some (resume (.ok result) c.state, c.state)
  | .dispatched (.error f), .native _ resume :: _ => some (resume (.error f) c.state, c.state)
  | .dispatched (.ok (.enter r)), .native args resume :: _ =>
    let closure := c.state.machine.store.closure r
    match Exec.pushFrame closure.entry closure args closure.entry c.state.context.sp c.state with
    | .error f s => some (resume (.error f) s, s)
    | .ok _ _ => none
  | .exited result, .nested base savedSp entry resume :: _ =>
    let (answer, s) := finishRun base savedSp entry c.state result
    some (resume answer s, s)
  | _, _ => none

theorem resumption?_eq_some {a : Action} {s : State} :
    resumption? host c = some (a, s) ↔ ∃ rest, Resumes host c a rest s := by
  obtain ⟨control, pending, t⟩ := c
  constructor
  · intro h
    unfold resumption? at h
    split at h
    next hcontrol =>
      dsimp only at hcontrol
      split at h
      next hbody =>
        cases h
        subst hcontrol
        exact ⟨_, .start hbody⟩
      next => cases h
    next hcontrol hpending =>
      cases h
      dsimp only at hcontrol hpending
      subst hcontrol hpending
      exact ⟨_, .reply .settled⟩
    next hcontrol hpending =>
      cases h
      dsimp only at hcontrol hpending
      subst hcontrol hpending
      exact ⟨_, .reply .failed⟩
    next hcontrol hpending =>
      dsimp only at hcontrol hpending
      subst hcontrol hpending
      dsimp only at h
      split at h
      next hpush =>
        cases h
        exact ⟨_, .reply (.crowded hpush)⟩
      next => cases h
    next hcontrol hpending =>
      dsimp only at hcontrol hpending
      subst hcontrol hpending
      cases h
      exact ⟨_, .reply .ended⟩
    next => cases h
  · rintro ⟨rest, hresumes⟩
    cases hresumes with
    | start hbody => simp only [resumption?, hbody]
    | reply hreply =>
      cases hreply with
      | settled | failed | ended => rfl
      | crowded hpush => simp only [resumption?, hpush]

theorem resets_iff : c.Resets host ↔ ∃ r ∈ resumption? host c, r.1.Resets r.2 := by
  constructor
  · rintro ⟨a, rest, s, hresumes, hresets⟩
    exact ⟨(a, s), resumption?_eq_some.mpr ⟨rest, hresumes⟩, hresets⟩
  · rintro ⟨⟨a, s⟩, hr, hresets⟩
    obtain ⟨rest, hresumes⟩ := resumption?_eq_some.mp hr
    exact ⟨a, rest, s, hresumes, hresets⟩

instance (host : Host) (c : Config) : Decidable (c.Resets host) :=
  match h : resumption? host c with
  | none => .isFalse fun hresets => by
    obtain ⟨r, hr, -⟩ := resets_iff.mp hresets
    cases h.symm.trans hr
  | some (a, s) => decidable_of_iff (a.Resets s) <| by
    rw [resets_iff, h]
    simp only [Option.mem_def, Option.some.injEq, exists_eq_left']

theorem tame_iff {Uses : Config → Nat → Prop} {depth : Nat} : c.Tame host Uses depth ↔
    ¬ c.Resets host ∧ (∀ d ∈ step host c, d.control.isAbrupt = false) ∧
      ∀ f ∈ oldest? depth c.state.context.frames, ∀ p < f.savedSp, ¬ Uses c p := by
  constructor
  · rintro ⟨hcalm, hsound, hgoing, habove⟩
    refine ⟨hcalm, fun d hd => ?_, habove⟩
    cases hcontrol : d.control with
    | run | dispatch | dispatched => rfl
    | exited result =>
      cases result with
      | error f => exact absurd hcontrol (hsound d hd f)
      | ok exit =>
        cases exit with
        | halted v => exact absurd hcontrol (hgoing d hd v)
        | returned | raised => rfl
  · rintro ⟨hcalm, hends, habove⟩
    refine ⟨hcalm, fun d hd f hf => ?_, fun d hd v hv => ?_, habove⟩
    · have h := hends d hd
      rw [hf] at h
      cases h
    · have h := hends d hd
      rw [hv] at h
      cases h

instance (Uses : Config → Nat → Prop) [∀ x p, Decidable (Uses x p)] (depth : Nat) :
    Decidable (c.Tame host Uses depth) := decidable_of_iff _ tame_iff.symm

theorem Trace.mem_of_continues (h : Trace host y cs d) (hcs : cs ≠ []) (hover : ¬ c.InCall d)
    (hx : Relation.ReflTransGen (Continues host c) y x) : x ∈ cs := by
  induction h with
  | refl => exact absurd rfl hcs
  | @cons w w' e cs hstep hrest ih =>
    rcases hx.cases_head with rfl | ⟨w'', ⟨hstep', hin⟩, hx⟩
    · exact List.mem_cons_self
    · cases hstep.symm.trans hstep'
      refine List.mem_cons_of_mem _ (ih ?_ hover hx)
      rintro rfl
      cases hrest
      exact hover hin

theorem tame_of_path {Uses : Config → Nat → Prop} {depth n : Nat}
    (hpath : (path host n c).1 ≠ [] ∧ ¬ c.InCall (path host n c).2)
    (htame : ∀ x ∈ (path host n c).1, x.Tame host Uses depth) :
    ∀ x, During host c x → x.Tame host Uses depth :=
  fun x hx => htame x ((trace_path host n c).mem_of_continues hpath.1 hpath.2 hx.continues)

theorem ends_of_path {n : Nat} (hsteps : ∀ i < n + 1, (step host (path host i c).2).isSome = true)
    (hin : ∀ i < n, c.InCall (path host (i + 1) c).2) (hover : ¬ c.InCall (path host (n + 1) c).2) :
    Ends host c (path host n c).2 (path host (n + 1) c).2 := by
  have hduring : ∀ i, i ≤ n → During host c (path host i c).2 := by
    intro i
    induction i with
    | zero => exact fun _ => .start
    | succ i ih =>
      intro hi
      exact (ih (Nat.le_of_succ_le hi)).step (step_path (hsteps i (by omega))) (hin i hi)
  exact ⟨hduring n (Nat.le_refl n), step_path (hsteps n (Nat.lt_succ_self n)), hover⟩

end Config
end StackVM
