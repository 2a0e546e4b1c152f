import Mathlib.Data.List.Nodup
import Mathlib.Data.List.ProdSigma
import StackVM.Proofs.Value.Display.Ellipses
import StackVM.Value.Edit
import StackVM.Value.Equality

/-! # Bisimulations between values

Two values are bisimilar when some relation between values holds of them and is kept by looking into
containers. `Compares` says how a comparison proceeds, without a bound on its depth and with any
order of the items of containers.
-/
namespace StackVM

namespace Entries
variable {entries : Entries} {k : Key} {v : Value}

theorem mem_of_get? (h : entries.get? k = some v) : (k, v) ∈ entries := by
  obtain ⟨before, after, rfl, -⟩ := List.lookup_eq_some_iff.mp h
  simp

theorem isSome_get?_iff : (entries.get? k).isSome = true ↔ k ∈ entries.map Prod.fst := by
  simp [get?, List.lookup_isSome_iff]

theorem get?_eq_some_iff (h : (entries.map Prod.fst).Nodup) :
    entries.get? k = some v ↔ (k, v) ∈ entries := by
  refine ⟨mem_of_get?, fun hm => ?_⟩
  obtain ⟨w, hw⟩ := Option.isSome_iff_exists.mp (isSome_get?_iff.mpr (List.mem_map_of_mem hm))
  have heq : (k, w) = (k, v) := List.inj_on_of_nodup_map h (mem_of_get? hw) hm rfl
  rw [hw, (Prod.mk.inj heq).2]

theorem mem_keys_insert {k' : Key} :
    k' ∈ (entries.insert k v).map Prod.fst ↔ k' = k ∨ k' ∈ entries.map Prod.fst := by
  fun_induction insert entries k v <;> grind

theorem nodup_insert (h : (entries.map Prod.fst).Nodup) (k : Key) (v : Value) :
    ((entries.insert k v).map Prod.fst).Nodup := by
  fun_induction insert entries k v with
  | case1 => simp
  | case2 => simpa using h
  | case3 k' v' rest k v hne ih =>
    obtain ⟨hk', hrest⟩ := List.nodup_cons.mp h
    refine List.nodup_cons.mpr ⟨fun hm => ?_, ih hrest⟩
    exact (mem_keys_insert.mp hm).elim hne hk'

theorem nodup_ofPairs (pairs : List (Key × Value)) : ((ofPairs pairs).map Prod.fst).Nodup := by
  refine List.foldlRecOn (motive := fun entries : Entries => (entries.map Prod.fst).Nodup) pairs _
    List.nodup_nil fun entries h e _ => ?_
  exact nodup_insert h e.1 e.2

end Entries

namespace Store

/-- No hash has a key twice. -/
def Keyed (st : Store) : Prop := ∀ entries ∈ st.hashes, (entries.map Prod.fst).Nodup

theorem Keyed.apply {st : Store} (h : st.Keyed) (e : Edit) : (st.apply e).2.Keyed := by
  intro entries hm
  cases e with
  | newArr | pushItem | setItems => exact h entries hm
  | newHash pairs =>
    rcases Array.mem_push.mp hm with hm | rfl
    · exact h entries hm
    · exact Entries.nodup_ofPairs pairs
  | putEntry r k v =>
    obtain ⟨n, hn, rfl⟩ := Array.mem_iff_getElem.mp hm
    simp only [Store.apply, putEntry, Array.getElem_modify]
    split
    · exact Entries.nodup_insert (h _ (Array.getElem_mem _)) k v
    · exact h _ (Array.getElem_mem _)
  | setEntries r pairs =>
    rcases Array.mem_or_eq_of_mem_setIfInBounds hm with hm | rfl
    · exact h entries hm
    · exact Entries.nodup_ofPairs pairs

theorem keyed_edits (edits : List Edit) :
    (edits.foldl (fun st e => (st.apply e).2) Store.empty).Keyed := by
  refine List.foldlRecOn edits _ (fun _ hm => ?_) fun st h e _ => h.apply e
  exact absurd hm (Array.not_mem_empty _)

theorem Keyed.nodup {st : Store} (h : st.Keyed) (r : HashRef) :
    ((st.hash r).map Prod.fst).Nodup := by
  unfold Store.hash
  cases hr : st.hashes[r.id]? with
  | none => exact List.nodup_nil
  | some entries => exact h entries (Array.mem_of_getElem? hr)

/-- Two values agree at the top, and what they hold is related. -/
inductive Matches (st : Store) (R : Value → Value → Prop) : Value → Value → Prop
  | scalar {v : Value} : v.container? = none → Matches st R v v
  | arr {a b : ArrRef} : (st.arr a).size = (st.arr b).size →
      (∀ (n : Nat) x y, (st.arr a)[n]? = some x → (st.arr b)[n]? = some y → R x y) →
      Matches st R (.arr a) (.arr b)
  | hash {a b : HashRef} :
      (∀ k, ((st.hash a).get? k).isSome = ((st.hash b).get? k).isSome) →
      (∀ k x y, (st.hash a).get? k = some x → (st.hash b).get? k = some y → R x y) →
      Matches st R (.hash a) (.hash b)

def Bisimulation (st : Store) (R : Value → Value → Prop) : Prop :=
  ∀ a b, R a b → st.Matches R a b

def Bisimilar (st : Store) (a b : Value) : Prop := ∃ R, st.Bisimulation R ∧ R a b

variable {st : Store} {R S : Value → Value → Prop} {a b c : Value}

theorem Matches.mono (h : st.Matches R a b) (hRS : ∀ x y, R x y → S x y) : st.Matches S a b := by
  cases h with
  | scalar hv => exact .scalar hv
  | arr hsize hitems => exact .arr hsize fun n x y hx hy => hRS x y (hitems n x y hx hy)
  | hash hkeys hvalues => exact .hash hkeys fun k x y hx hy => hRS x y (hvalues k x y hx hy)

theorem matches_eq (st : Store) (v : Value) : st.Matches Eq v v := by
  cases v with
  | arr r => exact .arr rfl fun n x y hx hy => Option.some.inj (hx.symm.trans hy)
  | hash r => exact .hash (fun _ => rfl) fun k x y hx hy => Option.some.inj (hx.symm.trans hy)
  | _ => exact .scalar rfl

theorem Matches.flip (h : st.Matches R a b) : st.Matches (fun x y => R y x) b a := by
  cases h with
  | scalar hv => exact .scalar hv
  | arr hsize hitems => exact .arr hsize.symm fun n x y hx hy => hitems n y x hy hx
  | hash hkeys hvalues =>
    exact .hash (fun k => (hkeys k).symm) fun k x y hx hy => hvalues k y x hy hx

theorem Matches.comp (h : st.Matches R a b) (h' : st.Matches S b c) :
    st.Matches (fun x z => ∃ y, R x y ∧ S y z) a c := by
  cases h with
  | scalar hv =>
    cases h' with
    | scalar => exact .scalar hv
    | arr | hash => cases hv
  | @arr a b hsize hitems =>
    cases h' with
    | scalar hv => cases hv
    | @arr _ c hsize' hitems' =>
      refine .arr (hsize.trans hsize') fun n x z hx hz => ?_
      have hn : n < (st.arr b).size := hsize ▸ (Array.getElem?_eq_some_iff.mp hx).1
      have hy : (st.arr b)[n]? = some (st.arr b)[n] := Array.getElem?_eq_getElem hn
      exact ⟨_, hitems n _ _ hx hy, hitems' n _ _ hy hz⟩
  | @hash a b hkeys hvalues =>
    cases h' with
    | scalar hv => cases hv
    | @hash _ c hkeys' hvalues' =>
      refine .hash (fun k => (hkeys k).trans (hkeys' k)) fun k x z hx hz => ?_
      have hsome : ((st.hash b).get? k).isSome = true := by rw [← hkeys k, hx]; rfl
      obtain ⟨y, hy⟩ := Option.isSome_iff_exists.mp hsome
      exact ⟨y, hvalues k _ _ hx hy, hvalues' k _ _ hy hz⟩

theorem Bisimilar.refl (st : Store) (v : Value) : st.Bisimilar v v :=
  ⟨Eq, fun a _ h => h ▸ st.matches_eq a, rfl⟩

theorem Bisimilar.symm (h : st.Bisimilar a b) : st.Bisimilar b a := by
  obtain ⟨R, hR, hab⟩ := h
  exact ⟨fun x y => R y x, fun x y hxy => (hR y x hxy).flip, hab⟩

theorem Bisimilar.trans (h : st.Bisimilar a b) (h' : st.Bisimilar b c) : st.Bisimilar a c := by
  obtain ⟨R, hR, hab⟩ := h
  obtain ⟨S, hS, hbc⟩ := h'
  refine ⟨fun x z => ∃ y, R x y ∧ S y z, ?_, b, hab, hbc⟩
  rintro x z ⟨y, hxy, hyz⟩
  exact (hR x y hxy).comp (hS y z hyz)

end Store

namespace ContainerPair

def left : ContainerPair → Value
  | .arr a _ => .arr a
  | .hash a _ => .hash a

def right : ContainerPair → Value
  | .arr _ b => .arr b
  | .hash _ b => .hash b

end ContainerPair

/-- Two values as containers of one kind. -/
def Value.pair? : Value → Value → Option ContainerPair
  | .arr a, .arr b => some (.arr a b)
  | .hash a, .hash b => some (.hash a b)
  | _, _ => none

theorem ContainerPair.eq_of_pair? {p : ContainerPair} {a b : Value} (h : a.pair? b = some p) :
    a = p.left ∧ b = p.right := by
  fun_cases Value.pair? a b with
  | case1 | case2 => cases h; exact ⟨rfl, rfl⟩
  | case3 hnotArr hnotHash => simp [Value.pair?] at h

/-- A value and what it is compared with, if there is something. -/
abbrev Partners := Value × Option Value

/-- The order in which the contents of two containers are compared, which may depend on the pairs
under comparison. -/
structure Order where
  arrange : List ContainerPair → List Partners → List Partners
  perm : ∀ path partners, (arrange path partners).Perm partners

namespace Store

/-- What is compared in two containers of the same size: items at one index, values under one
key. -/
def partners (st : Store) : ContainerPair → Option (List Partners)
  | .arr a b =>
    if (st.arr a).size = (st.arr b).size then
      some ((st.arr a).toList.zip ((st.arr b).toList.map some))
    else none
  | .hash a b =>
    if (st.hash a).length = (st.hash b).length then
      some ((st.hash a).map fun (k, x) => (x, (st.hash b).get? k))
    else none

/-- A comparison, given the pairs under comparison around it. It stops at the first difference. -/
inductive Compares (st : Store) (order : Order) : List ContainerPair → Partners → Bool → Prop
  | absent {path : List ContainerPair} {a : Value} : Compares st order path (a, none) false
  | scalar {path : List ContainerPair} {a b : Value} :
      a.pair? b = none → Compares st order path (a, some b) (decide (a = b))
  | known {path : List ContainerPair} {a b : Value} {p : ContainerPair} :
      a.pair? b = some p → a = b ∨ p ∈ path → Compares st order path (a, some b) true
  | sizes {path : List ContainerPair} {a b : Value} {p : ContainerPair} :
      a.pair? b = some p → ¬ (a = b ∨ p ∈ path) → st.partners p = none →
      Compares st order path (a, some b) false
  | alike {path : List ContainerPair} {a b : Value} {p : ContainerPair} {l : List Partners} :
      a.pair? b = some p → ¬ (a = b ∨ p ∈ path) → st.partners p = some l →
      (∀ c ∈ order.arrange (p :: path) l, Compares st order (p :: path) c true) →
      Compares st order path (a, some b) true
  | differ {path : List ContainerPair} {a b : Value} {p : ContainerPair}
      {l before after : List Partners} {c : Partners} :
      a.pair? b = some p → ¬ (a = b ∨ p ∈ path) → st.partners p = some l →
      order.arrange (p :: path) l = before ++ c :: after →
      (∀ d ∈ before, Compares st order (p :: path) d true) →
      Compares st order (p :: path) c false →
      Compares st order path (a, some b) false

section Comparisons
variable {st : Store} {order : Order} {path : List ContainerPair} {c : Partners}
  {p : ContainerPair}

/-- A comparison has one result at most. -/
theorem Compares.unique {r r' : Bool} (h : st.Compares order path c r)
    (h' : st.Compares order path c r') : r = r' := by
  induction h generalizing r' with
  | absent => cases h'; rfl
  | scalar hpair =>
    cases h' with
    | scalar => rfl
    | known hpair' | sizes hpair' | alike hpair' | differ hpair' => cases hpair.symm.trans hpair'
  | known hpair hknown =>
    cases h' with
    | scalar hpair' => cases hpair.symm.trans hpair'
    | known => rfl
    | sizes hpair' hnew | alike hpair' hnew | differ hpair' hnew =>
      cases hpair.symm.trans hpair'
      exact absurd hknown hnew
  | sizes hpair hnew hnone =>
    cases h' with
    | scalar hpair' => cases hpair.symm.trans hpair'
    | known hpair' hknown =>
      cases hpair.symm.trans hpair'
      exact absurd hknown hnew
    | sizes | differ => rfl
    | alike hpair' _ hsome =>
      cases hpair.symm.trans hpair'
      cases hnone.symm.trans hsome
  | alike hpair hnew hsome _ ih =>
    cases h' with
    | scalar hpair' => cases hpair.symm.trans hpair'
    | known | alike => rfl
    | sizes hpair' _ hnone =>
      cases hpair.symm.trans hpair'
      cases hnone.symm.trans hsome
    | differ hpair' _ hsome' harrange _ hdiffer =>
      cases hpair.symm.trans hpair'
      cases hsome.symm.trans hsome'
      exact ih _ (harrange ▸ List.mem_append_cons_self) hdiffer
  | differ hpair hnew hsome harrange _ _ _ ih =>
    cases h' with
    | scalar hpair' => cases hpair.symm.trans hpair'
    | known hpair' hknown =>
      cases hpair.symm.trans hpair'
      exact absurd hknown hnew
    | sizes | differ => rfl
    | alike hpair' _ hsome' hall =>
      cases hpair.symm.trans hpair'
      cases hsome.symm.trans hsome'
      exact ih (hall _ (harrange ▸ List.mem_append_cons_self))

end Comparisons
end Store
end StackVM
