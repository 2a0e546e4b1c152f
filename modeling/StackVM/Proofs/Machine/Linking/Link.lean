import StackVM.Proofs.Code.LinkCode
import StackVM.Proofs.Machine.Effect.Natives
import StackVM.Proofs.Machine.Names

/-! # Running one link

The code of a link resolves a name and writes its index into the operand of a site. Links leave
the code of each other alone, since it has no global access in it.
-/
namespace StackVM

namespace Program
variable {p q : Program} {pos : Nat} {value : UInt16}

theorem readWord?_eq_some_iff :
    p.readWord? pos = some value ↔ HoldsAt p.bytes pos (bytesLE 2 value.toNat) := by
  rw [readWord?, Option.map_eq_some_iff, exists_readLE_two_iff]

theorem readWord?_of_writeWord (h : p.writeWord pos value = .ok q) :
    q.readWord? pos = some value :=
  readWord?_eq_some_iff.mpr (holdsAt_of_writeWord h)

theorem readWord?_congr (hlow : q.byte? pos = p.byte? pos)
    (hhigh : q.byte? (pos + 1) = p.byte? (pos + 1)) : q.readWord? pos = p.readWord? pos := by
  simp only [byte?] at hlow hhigh
  simp only [readWord?, readLE, hlow, hhigh]

theorem byte?_of_readWord? (h : p.readWord? pos = some value) :
    p.byte? pos = some (UInt8.ofNat value.toNat) ∧
      p.byte? (pos + 1) = some (UInt8.ofNat (value.toNat / 256)) := by
  have hat := readWord?_eq_some_iff.mp h
  simp only [bytesLE, HoldsAt.cons_iff] at hat
  exact ⟨hat.1, hat.2.1⟩

theorem writeWord_of_readWord? (h : p.readWord? pos = some value) :
    p.writeWord pos value = .ok p := by
  have hend : pos + 2 ≤ p.size := readWord?_isSome_iff.mp (by simp [h])
  obtain ⟨q, hq⟩ : ∃ q, p.writeWord pos value = .ok q := ⟨_, if_pos hend⟩
  obtain ⟨hlow, hhigh⟩ := byte?_of_readWord? h
  obtain ⟨hlow', hhigh'⟩ := byte?_of_readWord? (readWord?_of_writeWord hq)
  have hsame : q = p := by
    apply ext_byte?
    intro k
    by_cases hk : k = pos
    · rw [hk, hlow, hlow']
    · by_cases hk' : k = pos + 1
      · rw [hk', hhigh, hhigh']
      · exact (writeWord_eq_ok hq).2 k hk hk'
  rw [hq, hsame]

end Program

/-- An instruction that linking leaves alone is found where the code of the program has it, and
after it comes the rest of that code. -/
theorem Relinked.decodeAt_code {p q : Program} {l : List (Nat × Instr)} {a : Nat} {i : Instr}
    {rest : List UInt8} (h : Relinked p l q) (hl : Listing p 0 l)
    (ha : a ∈ l.map Prod.fst ∨ a = p.size) (henc : i.Encodable)
    (hplain : i.opcode.takesGlobal = false) (hat : HoldsAt p.bytes a (i.bytes ++ rest)) :
    q.decodeAt a = .ok (i, a + i.size) ∧
      (a + i.size ∈ l.map Prod.fst ∨ a + i.size = p.size) ∧
      HoldsAt p.bytes (a + i.size) rest := by
  obtain ⟨hfirst, hrest⟩ := HoldsAt.append_iff.mp hat
  rw [Instr.bytes_length] at hrest
  have hdecode : p.decodeAt a = .ok (i, a + i.size) :=
    Instr.decode_eq_ok_iff_holdsAt.mpr ⟨henc, rfl, hfirst⟩
  have hlt : a < p.size := Instr.lt_size_of_decode hdecode
  rcases ha with ha | ha
  · obtain ⟨⟨_, j⟩, hm, rfl⟩ := List.mem_map.mp ha
    have hj := hl.decodeAt_of_mem hm
    rw [hdecode] at hj
    cases hj
    have hq := h.holdsAt_of_plain hl hm hplain
    exact ⟨Instr.decode_eq_ok_iff_holdsAt.mpr ⟨henc, rfl, hq⟩, hl.next_mem_or_eq hm, hrest⟩
  · omega

/-- A name can be linked to a site: the site is that of a global access, and both fit the code. -/
structure Linkable (l : List (Nat × Instr)) (pair : String × Nat) : Prop where
  site : ∃ i, (pair.2, i) ∈ l ∧ i.opcode.takesGlobal = true
  address : pair.2 + 1 ≤ 65535
  name : pair.1.utf8ByteSize ≤ 255

theorem Linkable.toNat_address {l : List (Nat × Instr)} {pair : String × Nat}
    (h : Linkable l pair) : (UInt16.ofNat (pair.2 + 1)).toNat = pair.2 + 1 :=
  UInt16.toNat_ofNat_of_lt' (Nat.lt_succ_of_le h.address)

theorem Relinked.patchable {p q : Program} {l : List (Nat × Instr)} {pair : String × Nat}
    (h : Relinked p l q) (hl : Listing p 0 l) (hpair : Linkable l pair) :
    Exec.patchable q (pair.2 + 1) = true := by
  obtain ⟨i, hm, hglobal⟩ := hpair.site
  obtain ⟨j, hdecode, -, hop, -⟩ := h.decodeAt hl hm
  obtain ⟨-, -, hat⟩ := Instr.decode_eq_ok_iff_holdsAt.mp hdecode
  have hbyte : q.byte? pair.2 = some i.opcode.toByte := by
    have hfirst := (HoldsAt.cons_iff.mp hat).1
    rwa [show j.opcode = i.opcode from hop] at hfirst
  have hend : pair.2 + i.size ≤ q.size := Instr.le_size_of_decode hdecode
  rw [Instr.size_of_takesGlobal hglobal] at hend
  exact Exec.patchable_iff.mpr ⟨pair.2, i.opcode, rfl, hbyte, hglobal, hend⟩

namespace Exec
variable {base : Base} {pos next : Nat} {m : Machine} {c : Context}

theorem indexOperand?_ofNat {n : Nat} (h : n ≤ 65535) :
    indexOperand? (Int64.ofNat n) = some (UInt16.ofNat n) := by
  have hvalue : (Int64.ofNat n).toInt = n := Int64.toInt_ofNat_of_lt (by omega)
  have hrange : (n : Int) ≤ 65535 := by omega
  simp [indexOperand?, hvalue, hrange]

theorem instr_pushText (hroom : c.sp < Capacity.stack) (name : String) :
    instr base pos next ⟨.pushText, name⟩ ⟨m, c⟩ =
      .ok .next ⟨m, { c with stack := .str name :: c.stack }⟩ := by
  simp [instr, pushNext, push, bind_apply, hroom, pure_apply]

theorem instr_resolveGlobal (hroom : c.sp < Capacity.stack) (name : String) :
    instr base pos next ⟨.resolveGlobal, ()⟩ ⟨m, { c with stack := .str name :: c.stack }⟩ =
      .ok .next ⟨{ m with globals := (m.globals.resolve name).2 },
        { c with stack := .int (Int64.ofNat (m.globals.resolve name).1) :: c.stack }⟩ := by
  have hspace : c.stack.length < Capacity.stack := hroom
  simp only [instr, resolveGlobal, peek, bind_apply, resolveName, discard, push, Context.sp,
    List.drop_succ_cons, List.drop_zero, hspace, if_true]
  rfl

theorem instr_patch {target index : UInt16} {q : Program} {n : Int64}
    (hphase : m.phase = .linking) (hindex : indexOperand? n = some index)
    (hpatch : patchable m.program target.toNat = true)
    (hwrite : m.program.writeWord target.toNat index = .ok q) :
    instr base pos next ⟨.patch, target⟩ ⟨m, { c with stack := .int n :: c.stack }⟩ =
      .ok .next ⟨{ m with program := q }, c⟩ := by
  let s : State := ⟨m, { c with stack := .int n :: c.stack }⟩
  have hoperand : writeOperand pos target index s = .ok .next ⟨{ m with program := q }, c⟩ :=
    writeOperand_apply (s := s) hpatch hwrite
  simp only [instr, patch, bind_apply, machine]
  rw [if_pos hphase]
  simp only [bind_apply, peek, hindex]
  exact hoperand

end Exec

namespace Config
variable {host : Host} {base : Base} {pending : List Pending} {s s' : State}

theorem step_next {ip next : Nat} {i : Instr}
    (hdecode : s.machine.program.decodeAt ip = .ok (i, next))
    (hinstr : Exec.instr base ip next i s = .ok .next s') :
    step host ⟨.run base ip, pending, s⟩ = some ⟨.run base next, pending, s'⟩ := by
  rw [step_run hdecode, hinstr]
  rfl

theorem reaches_link {p r : Program} {l : List (Nat × Instr)} {pair : String × Nat} {a : Nat}
    {rest : List UInt8} (hl : Listing p 0 l) (hp : Relinked p l s.machine.program)
    (hpair : Linkable l pair) (hphase : s.machine.phase = .linking)
    (hroom : s.context.sp < Capacity.stack)
    (hindex : (s.machine.globals.resolve pair.1).1 ≤ 65535)
    (ha : a ∈ l.map Prod.fst ∨ a = p.size)
    (hat : HoldsAt p.bytes a ((linkInstrs pair).flatMap Instr.bytes ++ rest))
    (hwrite : s.machine.program.writeWord (pair.2 + 1)
      (UInt16.ofNat (s.machine.globals.resolve pair.1).1) = .ok r) :
    let next := a + ((linkInstrs pair).flatMap Instr.bytes).length
    Reaches host ⟨.run base a, pending, s⟩ ⟨.run base next, pending,
        ⟨{ s.machine with program := r, globals := (s.machine.globals.resolve pair.1).2 },
          s.context⟩⟩ ∧
      (next ∈ l.map Prod.fst ∨ next = p.size) ∧ HoldsAt p.bytes next rest := by
  obtain ⟨m, c⟩ := s
  obtain ⟨name, site⟩ := pair
  simp only [linkInstrs, List.flatMap_cons, List.flatMap_nil, List.append_nil,
    List.append_assoc] at hat
  have hname : Instr.Encodable ⟨.pushText, name⟩ := hpair.name
  have hbare : Instr.Encodable ⟨.resolveGlobal, ()⟩ := trivial
  have hword : Instr.Encodable ⟨.patch, UInt16.ofNat (site + 1)⟩ := trivial
  obtain ⟨hpush, ha₁, hat₁⟩ := hp.decodeAt_code hl ha hname rfl hat
  obtain ⟨hresolve, ha₂, hat₂⟩ := hp.decodeAt_code hl ha₁ hbare rfl hat₁
  obtain ⟨hpatch, ha₃, hat₃⟩ := hp.decodeAt_code hl ha₂ hword rfl hat₂
  have haddress : (UInt16.ofNat (site + 1)).toNat = site + 1 := hpair.toNat_address
  have hpatchable := hp.patchable hl hpair
  rw [← haddress] at hpatchable hwrite
  let named : State := ⟨m, { c with stack := .str name :: c.stack }⟩
  let resolved : State := ⟨{ m with globals := (m.globals.resolve name).2 },
    { c with stack := .int (Int64.ofNat (m.globals.resolve name).1) :: c.stack }⟩
  have hstep₁ : step host ⟨.run base a, pending, ⟨m, c⟩⟩ = some ⟨.run base _, pending, named⟩ :=
    step_next hpush (Exec.instr_pushText hroom name)
  have hstep₂ : step host ⟨.run base _, pending, named⟩ =
      some ⟨.run base _, pending, resolved⟩ :=
    step_next hresolve (Exec.instr_resolveGlobal hroom name)
  have hstep₃ : step host ⟨.run base _, pending, resolved⟩ = some ⟨.run base _, pending,
      ⟨{ m with program := r, globals := (m.globals.resolve name).2 }, c⟩⟩ :=
    step_next hpatch (Exec.instr_patch hphase (Exec.indexOperand?_ofNat hindex) hpatchable hwrite)
  have hlength : a + ((linkInstrs (name, site)).flatMap Instr.bytes).length =
      a + Instr.size ⟨.pushText, name⟩ + Instr.size ⟨.resolveGlobal, ()⟩ +
        Instr.size ⟨.patch, UInt16.ofNat (site + 1)⟩ := by
    simp [linkInstrs, Nat.add_assoc]
  rw [hlength]
  refine ⟨?_, ha₃, hat₃⟩
  exact Relation.ReflTransGen.head hstep₁ (Relation.ReflTransGen.head hstep₂
    (Relation.ReflTransGen.single hstep₃))

end Config

end StackVM
