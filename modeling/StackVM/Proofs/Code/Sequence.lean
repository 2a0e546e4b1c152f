import Mathlib.Data.List.Forall2
import StackVM.Proofs.Code.Codec

/-! # Sequences that stop at the first failure

A function that may fail is applied to the members of a list in order. The result pairs every
member with its own result, or it is the failure of the first member that has one.
-/
namespace StackVM

theorem ok_bind {ε α β : Type} (a : α) (f : α → Except ε β) : (Except.ok a >>= f) = f a := rfl

theorem error_bind {ε α β : Type} (e : ε) (f : α → Except ε β) :
    (Except.error e >>= f) = .error e := rfl

theorem bind_eq_error_iff {ε α β : Type} {r : Except ε α} {f : α → Except ε β} {e : ε} :
    (r >>= f) = .error e ↔ r = .error e ∨ ∃ a, r = .ok a ∧ f a = .error e := by
  cases r with
  | error e' => simp [error_bind]
  | ok a => simp [ok_bind]

theorem exists_eq_ok_iff {ε α : Type} {r : Except ε α} :
    (∃ a, r = .ok a) ↔ ¬ ∃ e, r = .error e := by
  cases r <;> simp

theorem mapM_eq_ok_iff {ε α β : Type} {f : α → Except ε β} {as : List α} {bs : List β} :
    as.mapM f = .ok bs ↔ List.Forall₂ (fun a b => f a = .ok b) as bs := by
  induction as generalizing bs with
  | nil => cases bs <;> simp [pure, Except.pure]
  | cons a as ih =>
    rw [List.mapM_cons, bind_eq_ok_iff]
    constructor
    · rintro ⟨b, hb, hrest⟩
      obtain ⟨bs', hbs', hcons⟩ := bind_eq_ok_iff.mp hrest
      cases hcons
      exact .cons hb (ih.mp hbs')
    · intro h
      cases h with
      | cons hb hrest => exact ⟨_, hb, bind_eq_ok_iff.mpr ⟨_, ih.mpr hrest, rfl⟩⟩

theorem mapM_eq_of_forall₂ {ε α β γ : Type} {f : α → Except ε γ} {g : β → Except ε γ}
    {as : List α} {bs : List β} (h : List.Forall₂ (fun a b => f a = g b) as bs) :
    as.mapM f = bs.mapM g := by
  induction h with
  | nil => rfl
  | cons hfirst _ ih => rw [List.mapM_cons, List.mapM_cons, hfirst, ih]

theorem mem_iff_of_forall₂ {ε α β : Type} {f : α → Except ε β} {as : List α} {bs : List β}
    (h : List.Forall₂ (fun a b => f a = .ok b) as bs) {b : β} :
    b ∈ bs ↔ ∃ a ∈ as, f a = .ok b := by
  induction h with
  | nil => simp
  | cons hfirst _ ih =>
    rw [List.mem_cons, List.exists_mem_cons_iff, hfirst, ih, Except.ok.injEq, eq_comm]

theorem getElem?_concat_eq_some_iff {α : Type} {as : List α} {a b : α} {k : Nat} :
    (as ++ [a])[k]? = some b ↔ as[k]? = some b ∨ k = as.length ∧ b = a := by
  rw [List.getElem?_append]
  split
  next hlt => simp [Nat.ne_of_lt hlt]
  next hge =>
    rw [List.getElem?_eq_none (Nat.not_lt.mp hge), List.getElem?_singleton]
    split <;> simp_all [eq_comm] <;> omega

/-- The first member of a list that has something to report reports this. -/
def FirstReport {α β : Type} (reports : α → β → Prop) (as : List α) (b : β) : Prop :=
  ∃ before a after, as = before ++ a :: after ∧ reports a b ∧ ∀ x ∈ before, ∀ c, ¬ reports x c

section FirstReport
variable {ε α β : Type} {reports reports' : α → β → Prop} {a : α} {as : List α} {b : β}

theorem firstReport_nil : ¬ FirstReport reports [] b := by
  rintro ⟨before, a, after, heq, -, -⟩
  simp at heq

theorem firstReport_cons_iff :
    FirstReport reports (a :: as) b ↔
      reports a b ∨ (∀ c, ¬ reports a c) ∧ FirstReport reports as b := by
  constructor
  · rintro ⟨before, x, after, heq, hx, hbefore⟩
    cases before with
    | nil =>
      cases heq
      exact .inl hx
    | cons y before =>
      cases heq
      obtain ⟨hy, hbefore⟩ := List.forall_mem_cons.mp hbefore
      exact .inr ⟨hy, before, x, after, rfl, hx, hbefore⟩
  · rintro (ha | ⟨ha, before, x, after, rfl, hx, hbefore⟩)
    · exact ⟨[], a, as, rfl, ha, by simp⟩
    · exact ⟨a :: before, x, after, rfl, hx, List.forall_mem_cons.mpr ⟨ha, hbefore⟩⟩

theorem firstReport_congr (h : ∀ a ∈ as, ∀ b, reports a b ↔ reports' a b) :
    FirstReport reports as b ↔ FirstReport reports' as b := by
  induction as with
  | nil => exact iff_of_false firstReport_nil firstReport_nil
  | cons a as ih =>
    obtain ⟨ha, has⟩ := List.forall_mem_cons.mp h
    simp only [firstReport_cons_iff, ha, ih has]

theorem FirstReport.least {before : α → α → Prop} (h : FirstReport reports as b)
    (hsorted : as.Pairwise before) :
    ∃ a ∈ as, reports a b ∧ ∀ x ∈ as, ∀ c, reports x c → x = a ∨ before a x := by
  obtain ⟨front, a, back, rfl, ha, hfront⟩ := h
  refine ⟨a, by simp, ha, fun x hx c hc => ?_⟩
  rcases List.mem_append.mp hx with hx | hx
  · exact absurd hc (hfront x hx c)
  · rcases List.mem_cons.mp hx with rfl | hx
    · exact .inl rfl
    · exact .inr ((List.pairwise_cons.mp (List.pairwise_append.mp hsorted).2.1).1 x hx)

/-- Either the first report is found, or nobody has one. -/
theorem exists_firstReport_iff :
    (∃ b, FirstReport reports as b) ↔ ∃ a ∈ as, ∃ b, reports a b := by
  induction as with
  | nil => simp [firstReport_nil]
  | cons a as ih =>
    simp only [firstReport_cons_iff, List.exists_mem_cons_iff, ← ih]
    constructor
    · rintro ⟨b, ha | ⟨-, has⟩⟩
      · exact .inl ⟨b, ha⟩
      · exact .inr ⟨b, has⟩
    · rintro (⟨b, ha⟩ | ⟨b, has⟩)
      · exact ⟨b, .inl ha⟩
      · by_cases hself : ∃ c, reports a c
        · obtain ⟨c, hc⟩ := hself
          exact ⟨c, .inl hc⟩
        · exact ⟨b, .inr ⟨not_exists.mp hself, has⟩⟩

theorem mapM_eq_error_iff {f : α → Except ε β} {e : ε} :
    as.mapM f = .error e ↔ FirstReport (fun a e => f a = .error e) as e := by
  induction as with
  | nil => simp [pure, Except.pure, firstReport_nil]
  | cons a as ih =>
    rw [firstReport_cons_iff, ← ih, List.mapM_cons]
    cases ha : f a with
    | error e' => simp [bind, Except.bind]
    | ok b =>
      cases as.mapM f with
      | error e' => simp [bind, Except.bind]
      | ok bs => simp [bind, Except.bind, pure, Except.pure]

theorem findSome?_eq_some_iff_firstReport {f : α → Option β} :
    as.findSome? f = some b ↔ FirstReport (fun a b => f a = some b) as b := by
  rw [List.findSome?_eq_some_iff, FirstReport]
  simp only [Option.eq_none_iff_forall_ne_some, ne_eq]

end FirstReport
end StackVM
