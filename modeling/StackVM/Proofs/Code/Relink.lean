import StackVM.Proofs.Code.Listing
import Mathlib.Data.List.Forall2

/-! # Relinked programs

Linking writes only the operands of global accesses. A program that differs from a decoded one in
nothing else decodes at the same offsets to the same opcodes, and to the same instructions apart
from the written operands.
-/
namespace StackVM

namespace Listing
variable {p : Program} {pos : Nat} {l : List (Nat × Instr)} {a b : Nat} {i j : Instr}

theorem decodeAt_of_mem (h : Listing p pos l) (hm : (a, i) ∈ l) :
    p.decodeAt a = .ok (i, a + i.size) := by
  induction h with
  | nil => cases hm
  | cons hd _ ih =>
    rcases List.mem_cons.mp hm with heq | hm
    · cases heq
      have hnext := Instr.next_eq_of_decode hd
      rw [← hnext]
      exact hd
    · exact ih hm

theorem le_of_mem (h : Listing p pos l) (hm : (a, i) ∈ l) : pos ≤ a := by
  induction h with
  | nil => cases hm
  | cons hd _ ih =>
    rcases List.mem_cons.mp hm with heq | hm
    · cases heq
      exact Nat.le_refl _
    · have hnext := Instr.next_eq_of_decode hd
      have hle := ih hm
      omega

theorem end_le_of_mem (h : Listing p pos l) (hm : (a, i) ∈ l) : a + i.size ≤ p.size :=
  Instr.le_size_of_decode (h.decodeAt_of_mem hm)

theorem apart (h : Listing p pos l) (ha : (a, i) ∈ l) (hb : (b, j) ∈ l) :
    (a = b ∧ i = j) ∨ a + i.size ≤ b ∨ b + j.size ≤ a := by
  induction h with
  | nil => cases ha
  | cons hd hrest ih =>
    have hnext := Instr.next_eq_of_decode hd
    rcases List.mem_cons.mp ha with heqa | ha'
    · rcases List.mem_cons.mp hb with heqb | hb'
      · cases heqa
        cases heqb
        exact Or.inl ⟨rfl, rfl⟩
      · cases heqa
        have hle := hrest.le_of_mem hb'
        exact Or.inr (Or.inl (by omega))
    · rcases List.mem_cons.mp hb with heqb | hb'
      · cases heqb
        have hle := hrest.le_of_mem ha'
        exact Or.inr (Or.inr (by omega))
      · exact ih ha' hb'

theorem pos_mem (h : Listing p pos l) (hne : l ≠ []) : pos ∈ l.map Prod.fst := by
  cases h with
  | nil => exact absurd rfl hne
  | cons hd _ => simp

theorem pos_mem_or_eq (h : Listing p pos l) : pos ∈ l.map Prod.fst ∨ pos = p.size := by
  cases h with
  | nil => exact Or.inr rfl
  | cons hd _ => exact Or.inl (by simp)

theorem next_mem_or_eq (h : Listing p pos l) (hm : (a, i) ∈ l) :
    a + i.size ∈ l.map Prod.fst ∨ a + i.size = p.size := by
  induction h with
  | nil => cases hm
  | cons hd hrest ih =>
    rcases List.mem_cons.mp hm with heq | hm
    · cases heq
      rw [← Instr.next_eq_of_decode hd]
      exact hrest.pos_mem_or_eq.imp (fun h => by simp [h]) id
    · exact (ih hm).imp (fun h => by simp [h]) id

end Listing

theorem Instr.size_of_takesGlobal {i : Instr} (h : i.opcode.takesGlobal = true) : i.size = 3 := by
  obtain ⟨op, x⟩ := i
  cases op with
  | fetchGlobal | storeGlobal | globalDefined | defGlobalFun => rfl
  | _ => cases h

theorem exists_globalAccess {op : Opcode} (h : op.takesGlobal = true) (index : UInt16) :
    ∃ i : Instr, i.opcode = op ∧ i.Encodable ∧ i.bytes = op.toByte :: bytesLE 2 index.toNat := by
  cases op with
  | fetchGlobal => exact ⟨⟨.fetchGlobal, index⟩, rfl, trivial, rfl⟩
  | storeGlobal => exact ⟨⟨.storeGlobal, index⟩, rfl, trivial, rfl⟩
  | globalDefined => exact ⟨⟨.globalDefined, index⟩, rfl, trivial, rfl⟩
  | defGlobalFun => exact ⟨⟨.defGlobalFun, index⟩, rfl, trivial, rfl⟩
  | _ => cases h

theorem exists_readLE_two {code : Array UInt8} {pos : Nat} (h : pos + 2 ≤ code.size) :
    ∃ n, readLE code 2 pos = some n := by
  have hlow : code[pos]? = some code[pos] := Array.getElem?_eq_getElem (by omega)
  have hhigh : code[pos + 1]? = some code[pos + 1] := Array.getElem?_eq_getElem (by omega)
  simp only [readLE, hlow, hhigh]
  exact ⟨_, rfl⟩

theorem Program.readWord?_isSome_iff {p : Program} {pos : Nat} :
    (p.readWord? pos).isSome = true ↔ pos + 2 ≤ p.size := by
  unfold Program.readWord?
  rw [Option.isSome_map]
  constructor
  · intro h
    obtain ⟨n, hn⟩ := Option.isSome_iff_exists.mp h
    have hat := (readLE_eq_some_iff.mp hn).2
    have hle := hat.le_size (List.cons_ne_nil _ _)
    rwa [bytesLE_length] at hle
  · intro h
    obtain ⟨n, hn⟩ := exists_readLE_two (show pos + 2 ≤ p.bytes.size from h)
    rw [hn]
    rfl

theorem Program.ext_byte? {p q : Program} (h : ∀ k, q.byte? k = p.byte? k) : q = p := by
  obtain ⟨bytes⟩ := p
  obtain ⟨bytes'⟩ := q
  congr
  exact Array.ext_getElem? h

theorem Program.writeWord_eq_ok {p q : Program} {pos : Nat} {value : UInt16}
    (h : p.writeWord pos value = .ok q) :
    q.size = p.size ∧ ∀ k, k ≠ pos → k ≠ pos + 1 → q.byte? k = p.byte? k := by
  unfold Program.writeWord at h
  split at h
  next =>
    cases h
    constructor
    · simp [Program.size]
    · intro k hlow hhigh
      simp only [Program.byte?]
      rw [Array.getElem?_setIfInBounds_ne (Ne.symm hhigh),
        Array.getElem?_setIfInBounds_ne (Ne.symm hlow)]
  next => cases h

theorem Program.holdsAt_of_writeWord {p q : Program} {pos : Nat} {value : UInt16}
    (h : p.writeWord pos value = .ok q) : HoldsAt q.bytes pos (bytesLE 2 value.toNat) := by
  unfold Program.writeWord at h
  split at h
  next hend =>
    cases h
    have hhigh : pos + 1 < p.bytes.size := hend
    simp [bytesLE, hhigh, Nat.lt_of_succ_lt hhigh]
  next => cases h

theorem HoldsAt.of_writeWord {p q : Program} {a pos : Nat} {bytes : List UInt8} {value : UInt16}
    (h : HoldsAt p.bytes a bytes) (hw : p.writeWord pos value = .ok q)
    (hapart : pos + 2 ≤ a ∨ a + bytes.length ≤ pos) : HoldsAt q.bytes a bytes := by
  rw [HoldsAt.iff_getElem?] at h ⊢
  intro k hk
  have hbyte := (Program.writeWord_eq_ok hw).2 (a + k) (by omega) (by omega)
  exact hbyte.trans (h k hk)

/-- The addresses of the operand bytes of the global accesses in a listing. -/
def IsGlobalOperand (l : List (Nat × Instr)) (k : Nat) : Prop :=
  ∃ site i, (site, i) ∈ l ∧ i.opcode.takesGlobal = true ∧ (k = site + 1 ∨ k = site + 2)

/-- `q` differs from `p` at most in the operands of the global accesses in `l`. -/
structure Relinked (p : Program) (l : List (Nat × Instr)) (q : Program) : Prop where
  size_eq : q.size = p.size
  byte_eq : ∀ k, ¬ IsGlobalOperand l k → q.byte? k = p.byte? k

/-- The same instruction, up to the index of a global. -/
def SameUpToGlobal (a b : Nat × Instr) : Prop :=
  b.1 = a.1 ∧ b.2.opcode = a.2.opcode ∧ (a.2.opcode.takesGlobal = false → b.2 = a.2)

namespace Relinked
variable {p q r : Program} {l : List (Nat × Instr)}

theorem refl (p : Program) (l : List (Nat × Instr)) : Relinked p l p :=
  ⟨rfl, fun _ _ => rfl⟩

theorem writeWord (h : Relinked p l q) {site : Nat} {i : Instr} (hm : (site, i) ∈ l)
    (hg : i.opcode.takesGlobal = true) {index : UInt16}
    (hw : q.writeWord (site + 1) index = .ok r) : Relinked p l r := by
  obtain ⟨hsize, hbytes⟩ := Program.writeWord_eq_ok hw
  refine ⟨hsize.trans h.size_eq, ?_⟩
  intro k hk
  have hlow : k ≠ site + 1 := fun he => hk ⟨site, i, hm, hg, Or.inl he⟩
  have hhigh : k ≠ site + 2 := fun he => hk ⟨site, i, hm, hg, Or.inr he⟩
  rw [hbytes k hlow hhigh]
  exact h.byte_eq k hk

theorem not_isGlobalOperand (hl : Listing p 0 l) {a k : Nat} {i : Instr} (hm : (a, i) ∈ l)
    (hk : k < i.size) (hg : k = 0 ∨ i.opcode.takesGlobal = false) :
    ¬ IsGlobalOperand l (a + k) := by
  rintro ⟨site, j, hj, hjg, hsite⟩
  have hsize := Instr.size_of_takesGlobal hjg
  rcases hl.apart hm hj with ⟨rfl, rfl⟩ | hle | hle
  · rcases hg with rfl | hg
    · omega
    · rw [hg] at hjg
      cases hjg
  · omega
  · omega

theorem holdsAt_of_plain (h : Relinked p l q) (hl : Listing p 0 l) {a : Nat} {i : Instr}
    (hm : (a, i) ∈ l) (hg : i.opcode.takesGlobal = false) : HoldsAt q.bytes a i.bytes := by
  have hat := (Instr.decode_eq_ok_iff_holdsAt.mp (hl.decodeAt_of_mem hm)).2.2
  rw [HoldsAt.iff_getElem?] at hat ⊢
  intro k hk
  have hbyte := h.byte_eq (a + k)
    (not_isGlobalOperand hl hm (by simpa using hk) (Or.inr hg))
  exact hbyte.trans (hat k hk)

theorem decodeAt (h : Relinked p l q) (hl : Listing p 0 l) {a : Nat} {i : Instr}
    (hm : (a, i) ∈ l) :
    ∃ j, q.decodeAt a = .ok (j, a + i.size) ∧ SameUpToGlobal (a, i) (a, j) := by
  obtain ⟨henc, -, hat⟩ := Instr.decode_eq_ok_iff_holdsAt.mp (hl.decodeAt_of_mem hm)
  cases hg : i.opcode.takesGlobal with
  | false =>
    have hat' := h.holdsAt_of_plain hl hm hg
    exact ⟨i, Instr.decode_eq_ok_iff_holdsAt.mpr ⟨henc, rfl, hat'⟩, rfl, rfl, fun _ => rfl⟩
  | true =>
    have hsize := Instr.size_of_takesGlobal hg
    have hend := hl.end_le_of_mem hm
    rw [← h.size_eq, hsize] at hend
    obtain ⟨n, hn⟩ := exists_readLE_two (show a + 1 + 2 ≤ q.bytes.size from hend)
    have hword := exists_readLE_two_iff.mp ⟨n, hn, rfl⟩
    obtain ⟨j, hop, hjenc, hbytes⟩ := exists_globalAccess hg (UInt16.ofNat n)
    have hopcode : q.bytes[a]? = some i.opcode.toByte := by
      have hbyte := h.byte_eq (a + 0) (not_isGlobalOperand hl hm i.size_pos (Or.inl rfl))
      exact hbyte.trans (HoldsAt.cons_iff.mp hat).1
    have hat' : HoldsAt q.bytes a j.bytes := hbytes ▸ HoldsAt.cons_iff.mpr ⟨hopcode, hword⟩
    have hjsize : j.size = i.size := by
      rw [hsize]
      exact Instr.size_of_takesGlobal (hop ▸ hg)
    refine ⟨j, Instr.decode_eq_ok_iff_holdsAt.mpr ⟨hjenc, by rw [hjsize], hat'⟩, rfl, hop, ?_⟩
    rw [hg]
    intro hfalse
    cases hfalse

/-- A walk is rebuilt in `q` from its end, once each of its instructions decodes there. -/
theorem walk_of_decodeAt {pos : Nat} (hw : Listing p pos l) (hsize : q.size = p.size)
    (hdec : ∀ a i, (a, i) ∈ l →
      ∃ j, q.decodeAt a = .ok (j, a + i.size) ∧ SameUpToGlobal (a, i) (a, j)) :
    ∃ l', Listing q pos l' ∧ List.Forall₂ SameUpToGlobal l l' := by
  induction hw with
  | nil => exact ⟨[], hsize ▸ .nil, .nil⟩
  | @cons pos next i rest hd _ ih =>
    obtain ⟨j, hj, hsame⟩ := hdec pos i (List.mem_cons_self ..)
    obtain ⟨l', hl', hrest⟩ := ih fun a i hm => hdec a i (List.mem_cons_of_mem _ hm)
    rw [← Instr.next_eq_of_decode hd] at hj
    exact ⟨(pos, j) :: l', .cons hj hl', .cons hsame hrest⟩

/-- A relinked program decodes to the same listing, up to the indices of globals. -/
theorem listing (h : Relinked p l q) (hl : Listing p 0 l) :
    ∃ l', Listing q 0 l' ∧ List.Forall₂ SameUpToGlobal l l' :=
  walk_of_decodeAt hl h.size_eq fun _ _ => h.decodeAt hl

end Relinked
end StackVM
