import Mathlib.Data.List.Induction
import StackVM.Value.Edit
import StackVM.Value.Overload

/-! # References that lead to objects

A store is coherent if every reference in it leads to an object that it has, every overload chain
has members but no chains among them, and every closure fits its code. References stay alive,
because a store only grows.
-/
namespace StackVM

/-- The store has this function. -/
def Function.Live (st : Store) : Function → Prop
  | .native r => r.id < st.natives.size
  | .closure r => r.id < st.closures.size
  | .chain r => r.id < st.chains.size

/-- The store has the object that the value refers to, if it refers to one. -/
def Value.Live (st : Store) : Value → Prop
  | .arr r => r.id < st.arrays.size
  | .hash r => r.id < st.hashes.size
  | .func f => f.Live st
  | _ => True

/-- A chain has members, and none of them is a chain. -/
structure Chain.Flat (c : Chain) : Prop where
  nonempty : c.overloads ≠ []
  simple : ∀ r, .chain r ∉ c.overloads

/-- The closure has as many types as parameters, a slot for each of them, and a body that starts
inside a program of this size. -/
structure Closure.Formed (size : Nat) (c : Closure) : Prop where
  types : c.paramTypes.length = c.params.toNat
  slots : c.params ≤ c.slots
  entry : c.entry < size

namespace Store

/-- The second store has everything that the first one has. -/
structure Grows (st st' : Store) : Prop where
  arrays : st.arrays.size ≤ st'.arrays.size
  hashes : st.hashes.size ≤ st'.hashes.size
  closures : st.closures.size ≤ st'.closures.size
  chains : st.chains.size ≤ st'.chains.size
  natives : st.natives.size ≤ st'.natives.size

/-- All references lead to objects that exist, chains are flat, and closures fit a program of this
size. -/
structure Coherent (size : Nat) (st : Store) : Prop where
  arrays : ∀ items ∈ st.arrays, ∀ v ∈ items, v.Live st
  hashes : ∀ entries ∈ st.hashes, ∀ p ∈ entries, p.2.Live st
  locals : ∀ slots ∈ st.locals, ∀ v ∈ slots, v.Live st
  chains : ∀ c ∈ st.chains, ∀ f ∈ c.overloads, f.Live st
  flat : ∀ c ∈ st.chains, c.Flat
  formed : ∀ c ∈ st.closures, c.Formed size

end Store

section Growth
variable {st st' st'' : Store} {f : Function} {v : Value}

theorem Store.Grows.refl (st : Store) : st.Grows st := by constructor <;> exact Nat.le_refl _

theorem Store.Grows.trans (h : st.Grows st') (h' : st'.Grows st'') : st.Grows st'' where
  arrays := Nat.le_trans h.arrays h'.arrays
  hashes := Nat.le_trans h.hashes h'.hashes
  closures := Nat.le_trans h.closures h'.closures
  chains := Nat.le_trans h.chains h'.chains
  natives := Nat.le_trans h.natives h'.natives

theorem Function.Live.mono (h : f.Live st) (hst : st.Grows st') : f.Live st' := by
  cases f with
  | native r => exact Nat.lt_of_lt_of_le h hst.natives
  | closure r => exact Nat.lt_of_lt_of_le h hst.closures
  | chain r => exact Nat.lt_of_lt_of_le h hst.chains

theorem Value.Live.mono (h : v.Live st) (hst : st.Grows st') : v.Live st' := by
  cases v with
  | arr r => exact Nat.lt_of_lt_of_le h hst.arrays
  | hash r => exact Nat.lt_of_lt_of_le h hst.hashes
  | func f => exact Function.Live.mono h hst
  | _ => trivial

end Growth

/-- A store that grew and is still coherent. -/
structure Store.Develops (size : Nat) (st st' : Store) : Prop where
  grows : st.Grows st'
  coherent : st'.Coherent size

/-- A value and the store that it was made in: the store grew, and has what the value refers to. -/
structure Store.Yields (size : Nat) (st : Store) (out : Value × Store) : Prop extends
    st.Develops size out.2 where
  live : out.1.Live out.2

theorem mem_or_of_mem_modify {α : Type} {xs : Array α} {i : Nat} {f : α → α} {y : α}
    (h : y ∈ xs.modify i f) : y ∈ xs ∨ ∃ x ∈ xs, y = f x := by
  obtain ⟨j, hj⟩ := Array.mem_iff_getElem?.mp h
  rw [Array.getElem?_modify] at hj
  split at hj
  next =>
    obtain ⟨x, hx, rfl⟩ := Option.map_eq_some_iff.mp hj
    exact .inr ⟨x, Array.mem_of_getElem? hx, rfl⟩
  next => exact .inl (Array.mem_of_getElem? hj)

namespace Entries
variable {entries : Entries} {k : Key} {v : Value} {p : Key × Value}

theorem mem_insert (h : p ∈ entries.insert k v) : p ∈ entries ∨ p = (k, v) := by
  induction entries with
  | nil => exact .inr (List.mem_singleton.mp h)
  | cons q rest ih =>
    obtain ⟨k', v'⟩ := q
    unfold insert at h
    split at h
    next =>
      rcases List.mem_cons.mp h with rfl | hrest
      · exact .inr rfl
      · exact .inl (List.mem_cons_of_mem _ hrest)
    next =>
      rcases List.mem_cons.mp h with rfl | hrest
      · exact .inl List.mem_cons_self
      · exact (ih hrest).imp_left (List.mem_cons_of_mem _)

theorem mem_ofPairs {pairs : List (Key × Value)} (h : p ∈ ofPairs pairs) : p ∈ pairs := by
  induction pairs using List.reverseRecOn with
  | nil => cases h
  | append_singleton pairs q ih =>
    rw [ofPairs, List.foldl_append] at h
    rcases mem_insert h with hold | rfl
    · exact List.mem_append_left _ (ih hold)
    · exact List.mem_append_right _ List.mem_cons_self

end Entries

end StackVM
