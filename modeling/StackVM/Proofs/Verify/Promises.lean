import StackVM.Proofs.Code.Relink
import StackVM.Proofs.Verify.Findings

/-! # What a clean verification promises

A program without findings decodes to a nonempty listing in which every distance leads to an
instruction, every link writes the operand of a global access, and every closure has a slot for
each of its parameters. Relinking keeps these promises, because it rewrites none of the
instructions that they are about.
-/
namespace StackVM

/-- What the verifier promises of one instruction. -/
structure Permitted (p : Program) (l : List (Nat × Instr)) (pos : Nat) (i : Instr) : Prop where
  target : ∀ distance, i.relative? = some distance →
    ∃ t, relativeTarget? (pos + i.size) distance = some t ∧ t < p.size ∧ t ∈ l.map Prod.fst
  link : ∀ address : UInt16, i = ⟨.patch, address⟩ →
    ∃ site j, address.toNat = site + 1 ∧ (site, j) ∈ l ∧ j.opcode.takesGlobal = true
  closure : ∀ e : EntryPoint, i = ⟨.makeClosure, e⟩ → e.params ≤ e.slots

/-- A listing of a program in which the verifier finds nothing. -/
structure Verified (p : Program) (l : List (Nat × Instr)) : Prop where
  listing : Listing p 0 l
  ne_nil : l ≠ []
  permitted : ∀ pos i, (pos, i) ∈ l → Permitted p l pos i

namespace Decoded
variable {d : Decoded} {pos : Nat} {i : Instr}

theorem mem_of_instrAt? (h : d.instrAt? pos = some i) : (pos, i) ∈ d.instrs := by
  unfold instrAt? at h
  rw [List.lookup_eq_some_iff] at h
  obtain ⟨before, after, hl, -⟩ := h
  rw [hl]
  simp

theorem site_of_isGlobalOperand {address : Nat} (h : d.isGlobalOperand address = true) :
    ∃ site j, address = site + 1 ∧ (site, j) ∈ d.instrs ∧ j.opcode.takesGlobal = true := by
  cases address with
  | zero => cases h
  | succ site =>
    simp only [isGlobalOperand] at h
    cases hj : d.instrAt? site with
    | none =>
      rw [hj] at h
      cases h
    | some j =>
      rw [hj] at h
      exact ⟨site, j, rfl, mem_of_instrAt? hj, h⟩

theorem permitted_of_findings {p : Program} {l : List (Nat × Instr)}
    (h : ∀ f, ¬ (Decoded.mk l p.size).Finds f) (hm : (pos, i) ∈ l) : Permitted p l pos i := by
  refine ⟨?_, ?_, ?_⟩
  · intro distance hd
    cases htarget : (Decoded.mk l p.size).target? pos i distance with
    | none => exact absurd ⟨i, hm, hd, htarget⟩ (h (.targetOutOfRange pos distance))
    | some t =>
      cases hat : (Decoded.mk l p.size).instrAt? t with
      | none => exact absurd ⟨i, distance, hm, hd, htarget, hat⟩ (h (.targetNotOnBoundary pos t))
      | some j =>
        obtain ⟨hrel, hlt⟩ := Option.filter_eq_some_iff.mp htarget
        exact ⟨t, hrel, by simpa using hlt, List.mem_map.mpr ⟨(t, j), mem_of_instrAt? hat, rfl⟩⟩
  · rintro address rfl
    cases hglobal : (Decoded.mk l p.size).isGlobalOperand address.toNat with
    | false => exact absurd ⟨hm, hglobal⟩ (h (.invalidPatchTarget pos address))
    | true => exact site_of_isGlobalOperand hglobal
  · rintro e rfl
    refine UInt8.not_lt.mp fun hlt => ?_
    exact h (.invalidClosure pos e.params e.slots) ⟨e.offset, hm, hlt⟩

end Decoded

theorem verified_of_verify {p : Program} (h : p.verify = []) : ∃ l, Verified p l := by
  cases hl : p.decodeAll with
  | error e => simp [Program.verify, hl] at h
  | ok l =>
    have hnone : ∀ f, ¬ (Decoded.mk l p.size).Finds f := by
      intro f hf
      rw [← Program.mem_verify_iff hl, h] at hf
      cases hf
    have hne : l ≠ [] := by
      rintro rfl
      exact hnone .missingHalt fun _ _ hm => absurd hm List.not_mem_nil
    exact ⟨l, Program.decodeAll_eq_ok_iff_listing.mp hl, hne, fun _ _ =>
      Decoded.permitted_of_findings hnone⟩

theorem permitted_of_takesGlobal {p : Program} {l : List (Nat × Instr)} {pos : Nat} {i : Instr}
    (hg : i.opcode.takesGlobal = true) : Permitted p l pos i := by
  obtain ⟨op, x⟩ := i
  refine ⟨?_, ?_, ?_⟩
  · intro distance hd
    cases op with
    | fetchGlobal | storeGlobal | globalDefined | defGlobalFun => cases hd
    | _ => cases hg
  · rintro address ⟨⟩
    cases hg
  · rintro e ⟨⟩
    cases hg

namespace Verified
variable {p q : Program} {l : List (Nat × Instr)}

theorem zero_mem (h : Verified p l) : 0 ∈ l.map Prod.fst := h.listing.pos_mem h.ne_nil

theorem decodeAt_relinked (h : Verified p l) (hq : Relinked p l q) {pos : Nat}
    (hpos : pos ∈ l.map Prod.fst) :
    ∃ i, q.decodeAt pos = .ok (i, pos + i.size) ∧ Permitted p l pos i ∧
      (pos + i.size ∈ l.map Prod.fst ∨ pos + i.size = p.size) := by
  obtain ⟨⟨start, i⟩, hm, rfl⟩ := List.mem_map.mp hpos
  obtain ⟨j, hj, -, hop, hsame⟩ := hq.decodeAt h.listing hm
  have hsize := Instr.next_eq_of_decode hj
  refine ⟨j, by rw [← hsize]; exact hj, ?_, by rw [← hsize]; exact h.listing.next_mem_or_eq hm⟩
  cases hg : i.opcode.takesGlobal with
  | true => exact permitted_of_takesGlobal (hop ▸ hg)
  | false =>
    have hij := hsame hg
    dsimp only at hij
    rw [hij]
    exact h.permitted start i hm

end Verified
end StackVM
