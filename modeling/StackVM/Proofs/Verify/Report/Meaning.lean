import Mathlib.Data.List.Sort
import StackVM.Proofs.Machine.Operands
import StackVM.Proofs.Verify.Labels

/-! # What the findings say

What a finding says is stated here about the bytes of a program alone: about the instructions that
decoding comes to from the front, and about the offsets that it never comes to. The verifier works
on a decoded list instead, and reports a finding exactly when what the finding says is true.
-/
namespace StackVM

namespace Program

/-- Decoding from the front of the program comes to this offset. -/
inductive Reached (p : Program) : Nat → Prop
  | start : Reached p 0
  | next {pos next : Nat} {i : Instr} :
      Reached p pos → p.decodeAt pos = .ok (i, next) → Reached p next

/-- Decoding from the front finds this instruction between these offsets. -/
def Contains (p : Program) (pos : Nat) (i : Instr) (next : Nat) : Prop :=
  p.Reached pos ∧ p.decodeAt pos = .ok (i, next)

/-- Linking first ends at this offset. -/
def EndsLinkingAt (p : Program) (pos : Nat) : Prop :=
  (∃ next, p.Contains pos ⟨.initDone, ()⟩ next) ∧
    ∀ pos' next, p.Contains pos' ⟨.initDone, ()⟩ next → pos ≤ pos'

end Program

/-- A jump, a handler or a closure goes this far from the next instruction. -/
def Instr.Leads (i : Instr) (distance : Int16) : Prop :=
  (∃ kind : Branch, i = kind.instr distance) ∨
    ∃ params slots, i = ⟨.makeClosure, ⟨distance, params, slots⟩⟩

/-- What a finding says about a program that decodes. -/
inductive Program.Reports (p : Program) : Finding → Prop
  | missingHalt :
      (∀ pos i next, p.Contains pos i next → i.opcode ≠ .halt) → Reports p .missingHalt
  | targetOutOfRange {pos next : Nat} {i : Instr} {distance : Int16} :
      p.Contains pos i next → i.Leads distance →
      (next + distance.toInt < 0 ∨ p.size ≤ next + distance.toInt) →
      Reports p (.targetOutOfRange pos distance)
  | targetNotOnBoundary {pos next target : Nat} {i : Instr} {distance : Int16} :
      p.Contains pos i next → i.Leads distance → target = next + distance.toInt →
      target < p.size → ¬ p.Reached target → Reports p (.targetNotOnBoundary pos target)
  | patchAfterInitDone {pos next initDone : Nat} {target : UInt16} :
      p.Contains pos ⟨.patch, target⟩ next → p.EndsLinkingAt initDone → initDone < pos →
      Reports p (.patchAfterInitDone pos initDone)
  | invalidPatchTarget {pos next : Nat} {target : UInt16} :
      p.Contains pos ⟨.patch, target⟩ next →
      (∀ site i next, p.Contains site i next → i.opcode.takesGlobal = true →
        target.toNat ≠ site + 1) →
      Reports p (.invalidPatchTarget pos target)
  | invalidClosure {pos next : Nat} {distance : Int16} {params slots : UInt8} :
      p.Contains pos ⟨.makeClosure, ⟨distance, params, slots⟩⟩ next → slots < params →
      Reports p (.invalidClosure pos params slots)
  | countExceedsStack {pos next : Nat} {i : Instr} :
      p.Contains pos i next → 1024 < i.operands →
      Reports p (.countExceedsStack pos i.operands 1024)

namespace Finding

/-- The round of the verifier that makes the finding. -/
def round : Finding → Nat
  | .undecodable _ | .missingHalt => 0
  | .targetOutOfRange _ _ | .targetNotOnBoundary _ _ => 1
  | .patchAfterInitDone _ _ | .invalidPatchTarget _ _ => 2
  | .invalidClosure _ _ _ | .countExceedsStack _ _ _ => 3

/-- The offset of the instruction that the finding is about. -/
def site : Finding → Nat
  | .undecodable _ | .missingHalt => 0
  | .targetOutOfRange pos _ | .targetNotOnBoundary pos _ | .patchAfterInitDone pos _
  | .invalidPatchTarget pos _ | .invalidClosure pos _ _ | .countExceedsStack pos _ _ => pos

/-- The second of two findings that a round can make about one instruction. -/
def turn : Finding → Nat
  | .invalidPatchTarget _ _ | .countExceedsStack _ _ _ => 1
  | _ => 0

/-- The order of findings: by round, then by offset, then by kind. -/
def Before (f g : Finding) : Prop :=
  f.round < g.round ∨ f.round = g.round ∧
    (f.site < g.site ∨ f.site = g.site ∧ f.turn < g.turn)

instance : Std.Irrefl Before := ⟨fun f => by simp [Before]⟩

instance : Std.Asymm Before := ⟨fun f g => by unfold Before; omega⟩

end Finding

namespace Listing
variable {p : Program} {start pos next : Nat} {l : List (Nat × Instr)} {i : Instr}

theorem mem_or_eq_of_reached (h : Listing p 0 l) (hr : p.Reached pos) :
    pos ∈ l.map Prod.fst ∨ pos = p.size := by
  induction hr with
  | start => exact h.pos_mem_or_eq
  | next _ hdecode ih =>
    rcases ih with hpos | rfl
    · obtain ⟨⟨pos, j⟩, hm, rfl⟩ := List.mem_map.mp hpos
      cases hdecode.symm.trans (h.decodeAt_of_mem hm)
      exact h.next_mem_or_eq hm
    · exact absurd (Instr.lt_size_of_decode hdecode) (Nat.lt_irrefl _)

theorem reached_of_mem (h : Listing p start l) (hstart : p.Reached start) (hm : (pos, i) ∈ l) :
    p.Reached pos := by
  induction h with
  | nil => cases hm
  | cons hdecode _ ih =>
    rcases List.mem_cons.mp hm with heq | hm
    · cases heq
      exact hstart
    · exact ih (hstart.next hdecode) hm

theorem reached_iff (h : Listing p 0 l) (hpos : pos < p.size) :
    p.Reached pos ↔ pos ∈ l.map Prod.fst := by
  constructor
  · intro hr
    exact (h.mem_or_eq_of_reached hr).resolve_right (Nat.ne_of_lt hpos)
  · intro hlisted
    obtain ⟨⟨pos, j⟩, hm, rfl⟩ := List.mem_map.mp hlisted
    exact h.reached_of_mem .start hm

theorem contains_iff (h : Listing p 0 l) :
    p.Contains pos i next ↔ (pos, i) ∈ l ∧ next = pos + i.size := by
  constructor
  · rintro ⟨hr, hdecode⟩
    have hlisted := (h.reached_iff (Instr.lt_size_of_decode hdecode)).mp hr
    obtain ⟨⟨pos, j⟩, hm, rfl⟩ := List.mem_map.mp hlisted
    cases hdecode.symm.trans (h.decodeAt_of_mem hm)
    exact ⟨hm, rfl⟩
  · rintro ⟨hm, rfl⟩
    exact ⟨h.reached_of_mem .start hm, h.decodeAt_of_mem hm⟩

end Listing

theorem Instr.relative?_eq_some_iff {i : Instr} {distance : Int16} :
    i.relative? = some distance ↔ i.Leads distance := by
  constructor
  · intro h
    obtain ⟨op, x⟩ := i
    cases op with
    | jump => cases h; exact .inl ⟨.always, rfl⟩
    | jumpTrue => cases h; exact .inl ⟨.ifTrue, rfl⟩
    | jumpFalse => cases h; exact .inl ⟨.ifFalse, rfl⟩
    | tryStart => cases h; exact .inl ⟨.handler, rfl⟩
    | makeClosure => cases h; exact .inr ⟨x.params, x.slots, rfl⟩
    | _ => cases h
  · rintro (⟨kind, rfl⟩ | ⟨params, slots, rfl⟩)
    · exact kind.relative?_instr distance
    · rfl

theorem Decoded.builtFrom?_iff {i : Instr} {count : Nat} :
    builtFrom? i = some count ∧ Capacity.stack < count ↔ i.operands = count ∧ 1024 < count := by
  obtain ⟨op, x⟩ := i
  simp only [Capacity.stack]
  cases op with
  | makeArr | makeStr | makeClosure => simp [builtFrom?, Instr.operands]
  | makeHash => simp [builtFrom?, Instr.operands, Nat.mul_comm]
  | call =>
    have hcount : x.toNat < 256 := x.toNat_lt
    simp only [builtFrom?, Instr.operands, reduceCtorEq, false_and, false_iff]
    omega
  | _ =>
    simp only [builtFrom?, Instr.operands, reduceCtorEq, false_and, false_iff]
    omega

section Listed
variable {p : Program} {l : List (Nat × Instr)} {pos next : Nat} {i : Instr} {f : Finding}

theorem Decoded.target?_eq_none_iff {size : Nat} {distance : Int16} :
    (Decoded.mk l size).target? pos i distance = none ↔
      (pos + i.size : Nat) + distance.toInt < 0 ∨ size ≤ (pos + i.size : Nat) + distance.toInt := by
  simp only [target?, relativeTarget?]
  split
  next h => simp [Option.filter_some]; omega
  next h => simp; omega

theorem Decoded.target?_eq_some_iff {size t : Nat} {distance : Int16} :
    (Decoded.mk l size).target? pos i distance = some t ↔
      t = (pos + i.size : Nat) + distance.toInt ∧ t < size := by
  simp only [target?, relativeTarget?]
  split
  next h => simp [Option.filter_eq_some_iff]; omega
  next h => simp; omega

theorem Listing.isGlobalOperand_iff (h : Listing p 0 l) {size address : Nat} :
    (Decoded.mk l size).isGlobalOperand address = true ↔
      ∃ site j, (site, j) ∈ l ∧ j.opcode.takesGlobal = true ∧ address = site + 1 := by
  constructor
  · intro hglobal
    obtain ⟨site, j, haddress, hm, hj⟩ := Decoded.site_of_isGlobalOperand hglobal
    exact ⟨site, j, hm, hj, haddress⟩
  · rintro ⟨site, j, hm, hj, rfl⟩
    simp [Decoded.isGlobalOperand, h.instrAt?_eq_some_iff.mpr hm, hj]

theorem Decoded.endOfLinking?_eq_some_iff (h : l.Pairwise (·.1 < ·.1)) {initDone : Nat} :
    endOfLinking? l = some initDone ↔ (initDone, ⟨.initDone, ()⟩) ∈ l ∧
      ∀ pos, (pos, ⟨.initDone, ()⟩) ∈ l → initDone ≤ pos := by
  induction l with
  | nil => simp [endOfLinking?]
  | cons a l ih =>
    obtain ⟨start, op, x⟩ := a
    obtain ⟨hfirst, hrest⟩ := List.pairwise_cons.mp h
    by_cases hop : op = .initDone
    · subst hop
      have hfound : endOfLinking? ((start, ⟨.initDone, x⟩) :: l) = some start := by
        simp [endOfLinking?]
      rw [hfound]
      constructor
      · rintro ⟨⟩
        refine ⟨List.mem_cons_self, fun pos hm => ?_⟩
        rcases List.mem_cons.mp hm with heq | hm
        · cases heq
          exact Nat.le_refl _
        · exact Nat.le_of_lt (hfirst _ hm)
      · rintro ⟨hm, hleast⟩
        have hle := hleast start List.mem_cons_self
        rcases List.mem_cons.mp hm with heq | hm
        · cases heq
          rfl
        · exact absurd (hfirst _ hm) (Nat.not_lt.mpr hle)
    · have hskip : endOfLinking? ((start, ⟨op, x⟩) :: l) = endOfLinking? l := by
        simp [endOfLinking?, hop]
      have hmem : ∀ pos, (pos, ⟨.initDone, ()⟩) ∈ (start, ⟨op, x⟩) :: l ↔
          (pos, ⟨.initDone, ()⟩) ∈ l := by
        intro pos
        refine ⟨fun hm => ?_, List.mem_cons_of_mem _⟩
        rcases List.mem_cons.mp hm with heq | hm
        · cases heq
          exact absurd rfl hop
        · exact hm
      simp only [hskip, hmem, ih hrest]

/-- A link follows the end of linking that the verifier names exactly when that is the first one of
the program and stands before the link. -/
theorem Listing.endOfLinking?_take_iff (h : Listing p 0 l) {k initDone : Nat}
    (hk : l[k]? = some (pos, i)) :
    Decoded.endOfLinking? (l.take k) = some initDone ↔
      p.EndsLinkingAt initDone ∧ initDone < pos := by
  obtain ⟨hlt, hget⟩ := List.getElem?_eq_some_iff.mp hk
  have hsplit : l = l.take k ++ (pos, i) :: l.drop (k + 1) := by
    rw [← hget, ← List.drop_eq_getElem_cons hlt, List.take_append_drop]
  have hsorted := h.pairwise_lt
  rw [hsplit, List.pairwise_append, List.pairwise_cons] at hsorted
  obtain ⟨htake, ⟨hafter, -⟩, hbefore⟩ := hsorted
  have hmem : ∀ q j, (q, j) ∈ l.take k ↔ (q, j) ∈ l ∧ q < pos := by
    intro q j
    constructor
    · intro hm
      exact ⟨List.mem_of_mem_take hm, hbefore _ hm _ List.mem_cons_self⟩
    · rintro ⟨hm, hq⟩
      rw [hsplit, List.mem_append, List.mem_cons] at hm
      rcases hm with hm | heq | hm
      · exact hm
      · cases heq
        exact absurd hq (Nat.lt_irrefl _)
      · exact absurd (hafter _ hm) (Nat.not_lt.mpr (Nat.le_of_lt hq))
  rw [Decoded.endOfLinking?_eq_some_iff htake]
  simp only [hmem, Program.EndsLinkingAt, h.contains_iff]
  constructor
  · rintro ⟨⟨hm, hpos⟩, hleast⟩
    refine ⟨⟨⟨_, hm, rfl⟩, fun q _ hq => ?_⟩, hpos⟩
    by_cases hlt : q < pos
    · exact hleast q ⟨hq.1, hlt⟩
    · omega
  · rintro ⟨⟨⟨_, hm, -⟩, hleast⟩, hpos⟩
    exact ⟨⟨hm, hpos⟩, fun q hq => hleast q _ ⟨hq.1, rfl⟩⟩

/-- A finding about the listing says the same about the bytes. -/
theorem Listing.finds_iff (h : Listing p 0 l) :
    (Decoded.mk l p.size).Finds f ↔ p.Reports f := by
  cases f with
  | undecodable e =>
    refine ⟨False.elim, fun hf => ?_⟩
    cases hf
  | missingHalt =>
    constructor
    · intro hf
      exact .missingHalt fun pos i _ hi => hf pos i (h.contains_iff.mp hi).1
    · rintro ⟨hf⟩ pos i hi
      exact hf pos i _ (h.contains_iff.mpr ⟨hi, rfl⟩)
  | targetOutOfRange pos distance =>
    constructor
    · rintro ⟨i, hi, hd, ht⟩
      exact .targetOutOfRange (h.contains_iff.mpr ⟨hi, rfl⟩) (Instr.relative?_eq_some_iff.mp hd)
        (Decoded.target?_eq_none_iff.mp ht)
    · rintro (_ | ⟨hi, hd, ht⟩)
      obtain ⟨hm, rfl⟩ := h.contains_iff.mp hi
      exact ⟨_, hm, Instr.relative?_eq_some_iff.mpr hd, Decoded.target?_eq_none_iff.mpr ht⟩
  | targetNotOnBoundary pos t =>
    constructor
    · rintro ⟨i, distance, hi, hd, ht, hnone⟩
      obtain ⟨heq, hlt⟩ := Decoded.target?_eq_some_iff.mp ht
      refine .targetNotOnBoundary (h.contains_iff.mpr ⟨hi, rfl⟩)
        (Instr.relative?_eq_some_iff.mp hd) heq hlt ?_
      rw [h.reached_iff hlt]
      exact Decoded.instrAt?_eq_none_iff.mp hnone
    · rintro (_ | _ | ⟨hi, hd, heq, hlt, hreached⟩)
      obtain ⟨hm, rfl⟩ := h.contains_iff.mp hi
      rw [h.reached_iff hlt] at hreached
      exact ⟨_, _, hm, Instr.relative?_eq_some_iff.mpr hd,
        Decoded.target?_eq_some_iff.mpr ⟨heq, hlt⟩, Decoded.instrAt?_eq_none_iff.mpr hreached⟩
  | patchAfterInitDone pos initDone =>
    constructor
    · rintro ⟨k, target, hk, hdone⟩
      obtain ⟨hends, hlt⟩ := (h.endOfLinking?_take_iff hk).mp hdone
      exact .patchAfterInitDone (h.contains_iff.mpr ⟨List.mem_of_getElem? hk, rfl⟩) hends hlt
    · rintro (_ | _ | _ | ⟨hi, hends, hlt⟩)
      obtain ⟨k, hk⟩ := List.mem_iff_getElem?.mp (h.contains_iff.mp hi).1
      exact ⟨k, _, hk, (h.endOfLinking?_take_iff hk).mpr ⟨hends, hlt⟩⟩
  | invalidPatchTarget pos target =>
    have hglobal : (Decoded.mk l p.size).isGlobalOperand target.toNat = false ↔
        ∀ site i next, p.Contains site i next → i.opcode.takesGlobal = true →
          target.toNat ≠ site + 1 := by
      rw [← Bool.not_eq_true, h.isGlobalOperand_iff]
      constructor
      · intro hno site i next hi hop heq
        exact hno ⟨site, i, (h.contains_iff.mp hi).1, hop, heq⟩
      · rintro hall ⟨site, i, hi, hop, heq⟩
        exact hall site i _ (h.contains_iff.mpr ⟨hi, rfl⟩) hop heq
    constructor
    · rintro ⟨hi, hno⟩
      exact .invalidPatchTarget (h.contains_iff.mpr ⟨hi, rfl⟩) (hglobal.mp hno)
    · rintro (_ | _ | _ | _ | ⟨hi, hno⟩)
      exact ⟨(h.contains_iff.mp hi).1, hglobal.mpr hno⟩
  | invalidClosure pos params slots =>
    constructor
    · rintro ⟨offset, hi, hlt⟩
      exact .invalidClosure (h.contains_iff.mpr ⟨hi, rfl⟩) hlt
    · rintro (_ | _ | _ | _ | _ | ⟨hi, hlt⟩)
      exact ⟨_, (h.contains_iff.mp hi).1, hlt⟩
  | countExceedsStack pos count capacity =>
    constructor
    · rintro ⟨i, hi, hcount, rfl, hlt⟩
      obtain ⟨rfl, hlarge⟩ := Decoded.builtFrom?_iff.mp ⟨hcount, hlt⟩
      exact .countExceedsStack (h.contains_iff.mpr ⟨hi, rfl⟩) hlarge
    · rintro (_ | _ | _ | _ | _ | _ | ⟨hi, hlarge⟩)
      obtain ⟨hcount, hlt⟩ := Decoded.builtFrom?_iff.mpr ⟨rfl, hlarge⟩
      exact ⟨_, (h.contains_iff.mp hi).1, hcount, rfl, hlt⟩

end Listed

end StackVM
