import StackVM.Proofs.Verify.Promises

/-! # Looking up instructions

An offset has at most one instruction in a listing, and the offsets of a listing increase. So an
instruction can be found by going through the list or by halving it: both find the same.
-/
namespace StackVM

/-- Look a number up by halving the list: in the part from its middle on unless the number is less
than the one there. -/
def bisect {α : Type} (key : Nat) (l : List (Nat × α)) : Option α :=
  if h : 1 < l.length then
    if key < (l[l.length / 2]).1 then bisect key (l.take (l.length / 2))
    else bisect key (l.drop (l.length / 2))
  else l.head?.bind fun e => if e.1 = key then some e.2 else none
termination_by l.length
decreasing_by all_goals grind

section Sorted
variable {α : Type} {key n : Nat} {l : List (Nat × α)}

theorem lookup_eq_none_of_ne (h : ∀ e ∈ l, e.1 ≠ key) : l.lookup key = none :=
  List.lookup_eq_none_iff.mpr fun e he => bne_iff_ne.mpr (h e he).symm

theorem lookup_take_of_lt (h : l.Pairwise (·.1 < ·.1)) (hn : n < l.length) (hkey : key < l[n].1) :
    (l.take n).lookup key = l.lookup key := by
  have hrest : (l.drop n).lookup key = none := by
    have hsorted := h.sublist (List.drop_sublist n l)
    rw [List.drop_eq_getElem_cons hn] at hsorted ⊢
    have hlast := (List.pairwise_cons.mp hsorted).1
    apply lookup_eq_none_of_ne
    rintro e he rfl
    rcases List.mem_cons.mp he with rfl | he
    · exact Nat.lt_irrefl _ hkey
    · exact Nat.lt_asymm hkey (hlast e he)
  conv => rhs; rw [← List.take_append_drop n l, List.lookup_append, hrest, Option.or_none]

theorem lookup_drop_of_le (h : l.Pairwise (·.1 < ·.1)) (hn : n < l.length) (hkey : l[n].1 ≤ key) :
    (l.drop n).lookup key = l.lookup key := by
  have hfirst : (l.take n).lookup key = none := by
    rw [← List.take_append_drop n l, List.drop_eq_getElem_cons hn, List.pairwise_append] at h
    apply lookup_eq_none_of_ne
    rintro e he rfl
    exact Nat.not_le_of_lt (h.2.2 e he _ List.mem_cons_self) hkey
  conv => rhs; rw [← List.take_append_drop n l, List.lookup_append, hfirst, Option.none_or]

/-- In a list of increasing numbers the halves that are left out do not have the number. -/
theorem bisect_eq_lookup (h : l.Pairwise (·.1 < ·.1)) : bisect key l = l.lookup key := by
  fun_induction bisect key l with
  | case1 l hlong hless ih =>
    rw [ih (h.sublist (List.take_sublist _ _))]
    exact lookup_take_of_lt h (Nat.div_lt_self (Nat.zero_lt_of_lt hlong) Nat.one_lt_two) hless
  | case2 l hlong hless ih =>
    rw [ih (h.sublist (List.drop_sublist _ _))]
    exact lookup_drop_of_le h (Nat.div_lt_self (Nat.zero_lt_of_lt hlong) Nat.one_lt_two)
      (Nat.le_of_not_lt hless)
  | case3 l hshort =>
    cases l with
    | nil => rfl
    | cons e rest =>
      have hrest : rest = [] := by
        rw [List.length_cons] at hshort
        exact List.eq_nil_of_length_eq_zero (by omega)
      rw [hrest, List.head?_cons, Option.bind_some, List.lookup_cons, List.lookup_nil]
      by_cases hkey : e.1 = key
      · subst hkey
        simp
      · rw [if_neg hkey, beq_false_of_ne (Ne.symm hkey)]

end Sorted

theorem Decoded.instrAt?_eq_none_iff {l : List (Nat × Instr)} {pos size : Nat} :
    (Decoded.mk l size).instrAt? pos = none ↔ pos ∉ l.map Prod.fst := by
  rw [instrAt?, List.lookup_eq_none_iff]
  constructor
  · intro h hm
    obtain ⟨a, ha, rfl⟩ := List.mem_map.mp hm
    simpa using h a ha
  · intro h a ha
    have hne : pos ≠ a.1 := fun heq => h (heq ▸ List.mem_map_of_mem ha)
    simpa using hne

namespace Listing
variable {p : Program} {start pos size : Nat} {l : List (Nat × Instr)} {i j : Instr}

theorem pairwise_lt (h : Listing p start l) : l.Pairwise (·.1 < ·.1) := by
  induction h with
  | nil => exact .nil
  | @cons pos next i rest hdecode hrest ih =>
    refine List.pairwise_cons.mpr ⟨?_, ih⟩
    rintro ⟨pos', j⟩ hm
    have hle := hrest.le_of_mem hm
    have hnext := Instr.next_eq_of_decode hdecode
    have hsize := i.size_pos
    dsimp only
    omega

theorem eq_of_mem (h : Listing p start l) (hi : (pos, i) ∈ l) (hj : (pos, j) ∈ l) : i = j := by
  have hsame := (h.decodeAt_of_mem hi).symm.trans (h.decodeAt_of_mem hj)
  exact congrArg Prod.fst (Except.ok.inj hsame)

theorem instrAt?_eq_some_iff (h : Listing p start l) :
    (Decoded.mk l size).instrAt? pos = some i ↔ (pos, i) ∈ l := by
  refine ⟨Decoded.mem_of_instrAt?, fun hm => ?_⟩
  cases hat : (Decoded.mk l size).instrAt? pos with
  | none => simpa using List.lookup_eq_none_iff.mp hat (pos, i) hm
  | some j => rw [h.eq_of_mem hm (Decoded.mem_of_instrAt? hat)]

theorem instrAt?_size (h : Listing p start l) :
    (Decoded.mk l size).instrAt? p.size = none := by
  cases hat : (Decoded.mk l size).instrAt? p.size with
  | none => rfl
  | some i =>
    have hend := h.end_le_of_mem (Decoded.mem_of_instrAt? hat)
    have hsize := i.size_pos
    omega

/-- In a decoded program the instruction at an offset can be found by halving. -/
theorem instrAt?_eq_bisect (h : Listing p start l) (pos : Nat) :
    (Decoded.mk l size).instrAt? pos = bisect pos l :=
  (bisect_eq_lookup h.pairwise_lt).symm

end Listing

end StackVM
