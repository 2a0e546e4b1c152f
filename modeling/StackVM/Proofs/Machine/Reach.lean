import StackVM.Machine.Vm
import Mathlib.Logic.Relation

/-! # The points of a run

Every configuration that a run goes through is reached by steps from its first one. What holds at
the first configuration and is kept by each step holds at all of them, and a run that ends does so
in a configuration that it reached.
-/
namespace StackVM.Config

/-- The second configuration comes up in the run of the first one. -/
def Reaches (host : Host) : Config → Config → Prop :=
  Relation.ReflTransGen fun c d => step host c = some d

variable {host : Host} {c d : Config}

theorem Reaches.refl (host : Host) (c : Config) : Reaches host c c := Relation.ReflTransGen.refl

/-- The invariant principle of runs. -/
theorem Reaches.induct {I : Config → Prop} (h : Reaches host c d) (hc : I c)
    (hstep : ∀ m n, Reaches host c m → I m → step host m = some n → I n) : I d := by
  induction h with
  | refl => exact hc
  | tail hm hn ih => exact hstep _ _ hm ih hn

theorem exists_reaches_of_run {fuel : Nat} {r : Except Fault Exit} {s : State}
    (h : run host fuel c = some (r, s)) : ∃ d, Reaches host c d ∧ d.result? = some (r, s) := by
  induction fuel generalizing c with
  | zero => cases h
  | succ fuel ih =>
    rw [run] at h
    cases hres : c.result? with
    | some out =>
      rw [hres] at h
      cases h
      exact ⟨c, .refl host c, hres⟩
    | none =>
      rw [hres] at h
      obtain ⟨next, hnext, hrun⟩ := Option.bind_eq_some_iff.mp h
      obtain ⟨d, hd, hout⟩ := ih hrun
      exact ⟨d, Relation.ReflTransGen.head hnext hd, hout⟩

theorem control_of_result? {r : Except Fault Exit} {s : State} (h : c.result? = some (r, s)) :
    c.control = .exited r ∧ c.pending = [] ∧ c.state = s := by
  obtain ⟨control, pending, state⟩ := c
  unfold result? at h
  split at h
  next r' hcontrol hpending =>
    cases h
    exact ⟨hcontrol, hpending, rfl⟩
  next => cases h

end StackVM.Config

namespace StackVM.Machine

theorem exists_reaches_of_run_error {host : Host} {fuel entry : Nat} {m m' : Machine}
    {ctx ctx' : Context} {f : Fault} (h : m.run host fuel ctx entry = some (.error f, m', ctx')) :
    ∃ c, (m.runConfig ctx entry).Reaches host c ∧ c.control = .exited (.error f) := by
  obtain ⟨⟨exit, s⟩, hrun, hfinish⟩ := Option.map_eq_some_iff.mp h
  obtain ⟨c, hc, hresult⟩ := Config.exists_reaches_of_run hrun
  obtain ⟨hcontrol, -, -⟩ := Config.control_of_result? hresult
  refine ⟨c, hc, ?_⟩
  rw [hcontrol]
  cases exit with
  | error g =>
    cases hfinish
    rfl
  | ok e => cases e <;> cases hfinish

end StackVM.Machine
