import StackVM.Proofs.Code.Pieces.Skeletons

/-! # Filling in operands

Filling in one operand completes one piece and touches no other, so filling in all of them turns the
pieces into instructions one by one and stops at the first label that cannot become an operand.
-/
namespace StackVM

theorem Program.writeWord_toArray (before after : List UInt8) (op low high : UInt8)
    (value : UInt16) :
    writeWord ⟨(before ++ op :: low :: high :: after).toArray⟩ (before.length + 1) value =
      .ok ⟨(before ++ op :: (bytesLE 2 value.toNat ++ after)).toArray⟩ := by
  have hend : before.length + 1 + 2 ≤ size ⟨(before ++ op :: low :: high :: after).toArray⟩ := by
    simp only [size, List.size_toArray, List.length_append, List.length_cons]
    omega
  have hnext : before.length + 1 + 1 - before.length = 2 := by omega
  rw [writeWord, if_pos hend]
  simp only [List.setIfInBounds_toArray]
  rw [List.set_append_right _ _ (by omega), List.set_append_right _ _ (by omega), hnext,
    Nat.add_sub_cancel_left]
  rfl

/-- The position of the operand that a fixup fills in. -/
def Fixup.pos : Fixup → Nat
  | .relative site _ _ => site
  | .address site _ => site

namespace Builder

/-- The word that goes into an operand. -/
def operand (b : Builder) : Fixup → Except CodeError UInt16
  | .relative _ next l => do
    let target ← b.resolve l
    let distance ← distanceTo next target
    return distance.toUInt16
  | .address pos l => do
    let site ← b.resolve l
    operandAddress (b.origin + pos) site

/-- The instruction that a builder makes of the piece at a position of its bytes. -/
def complete (b : Builder) (q : Nat × Piece) : Except CodeError Instr :=
  match q.2.fixup? b.origin q.1 with
  | none => .ok q.2.skeleton
  | some f => (b.operand f).map q.2.withWord

section Filling
variable {b : Builder} {f : Fixup}

theorem fill_eq (p : Program) :
    b.fill p f = b.operand f >>= fun word => p.writeWord f.pos word := by
  cases f with
  | relative site next l =>
    simp only [fill, operand]
    cases b.resolve l with
    | error e => rfl
    | ok target =>
      simp only [ok_bind]
      cases distanceTo next target with
      | error e => rfl
      | ok distance => rfl
  | address pos l =>
    simp only [fill, operand]
    cases b.resolve l with
    | error e => rfl
    | ok site => rfl

theorem fill_first (b : Builder) (x : Piece) (before after : List UInt8) :
    (x.fixup? b.origin before.length).toList.foldlM b.fill
        ⟨(before ++ (x.skeleton.bytes ++ after)).toArray⟩ =
      (b.complete (before.length, x)).map fun i => ⟨(before ++ (i.bytes ++ after)).toArray⟩ := by
  unfold complete
  cases hx : x.fixup? b.origin before.length with
  | none => rfl
  | some f =>
    have hpos : f.pos = before.length + 1 := by cases x <;> cases hx <;> rfl
    obtain ⟨op, rest, hbytes⟩ := Piece.exists_bytes_withWord hx
    simp only [Option.toList_some, List.foldlM_cons, List.foldlM_nil, bind_pure]
    rw [fill_eq, hpos, x.skeleton_eq_withWord, hbytes]
    cases b.operand f with
    | error e => rfl
    | ok word =>
      have hwrite := Program.writeWord_toArray before (rest ++ after) op 0 0 word
      simpa [bytesLE, hbytes, ok_bind, Except.map] using hwrite

theorem size_of_complete {q : Nat × Piece} {i : Instr} (h : b.complete q = .ok i) :
    i.size = q.2.size := by
  obtain ⟨pos, x⟩ := q
  unfold complete at h
  split at h
  next =>
    cases h
    rfl
  next f hf =>
    cases hword : b.operand f with
    | error e => simp [hword, Except.map] at h
    | ok word =>
      simp only [hword, Except.map, Except.ok.injEq] at h
      subst h
      cases x with
      | plain => rfl
      | branch kind l => exact (kind.size_instr _).trans (kind.size_instr _).symm
      | closure => rfl
      | patch => rfl

/-- Operands are filled in from the front, and each one belongs to the first piece that still has a
zero for its label. -/
theorem foldlM_fill (b : Builder) (xs : List Piece) (before : List UInt8) :
    (fixupsFrom b.origin before.length xs).foldlM b.fill
        ⟨(before ++ skeletonBytes xs).toArray⟩ =
      ((placedFrom before.length xs).mapM b.complete).map fun instrs =>
        ⟨(before ++ instrs.flatMap Instr.bytes).toArray⟩ := by
  induction xs generalizing before with
  | nil => rfl
  | cons x xs ih =>
    rw [skeletonBytes, List.flatMap_cons, ← skeletonBytes, fixupsFrom, placedFrom,
      List.foldlM_append, fill_first, List.mapM_cons]
    cases hx : b.complete (before.length, x) with
    | error e => rfl
    | ok i =>
      have hsize : (before ++ i.bytes).length = before.length + x.size := by
        simp [size_of_complete hx]
      have hrest := ih (before ++ i.bytes)
      rw [hsize] at hrest
      simp only [Except.map, ok_bind]
      rw [← List.append_assoc, hrest]
      cases (placedFrom (before.length + x.size) xs).mapM b.complete with
      | error e => rfl
      | ok instrs => simp [Except.map, ok_bind, pure, Except.pure]

end Filling

section Completing
variable {b : Builder} {x : Piece} {pos : Nat} {l : Label}

theorem resolve_eq_ok_iff : b.resolve l = .ok pos ↔ b.labels[l.index]? = some (some pos) := by
  unfold resolve
  split <;> simp_all

theorem resolve_eq_error_iff {e : CodeError} :
    b.resolve l = .error e ↔ (∀ pos, b.resolve l ≠ .ok pos) ∧ e = .unboundLabel l.index := by
  unfold resolve
  split <;> simp_all [eq_comm]

theorem complete_of_leads (h : x.leads? = some l) :
    b.complete (pos, x) = do
      let target ← b.resolve l
      let distance ← distanceTo (b.origin + (pos + x.size)) target
      return x.withWord distance.toUInt16 := by
  have hfixup : x.fixup? b.origin pos =
      some (.relative (pos + 1) (b.origin + (pos + x.size)) l) := by
    cases x <;> cases h <;> rfl
  simp only [complete, hfixup, operand]
  cases b.resolve l with
  | error e => rfl
  | ok target =>
    simp only [ok_bind]
    cases distanceTo (b.origin + (pos + x.size)) target <;> rfl

theorem complete_of_patches (h : x.patches? = some l) :
    b.complete (pos, x) = do
      let site ← b.resolve l
      let address ← operandAddress (b.origin + (pos + 1)) site
      return x.withWord address := by
  have hfixup : x.fixup? b.origin pos = some (.address (pos + 1) l) := by
    cases x <;> cases h
    rfl
  simp only [complete, hfixup, operand]
  cases b.resolve l with
  | error e => rfl
  | ok site =>
    simp only [ok_bind]
    cases operandAddress (b.origin + (pos + 1)) site <;> rfl

theorem complete_eq_ok_iff {i : Instr} :
    b.complete (pos, x) = .ok i ↔
      x.Becomes (fun l t => b.resolve l = .ok t) (b.origin + pos) i := by
  cases x with
  | plain j =>
    constructor
    · rintro ⟨⟩
      exact .plain
    · rintro ⟨⟩
      rfl
  | branch kind l =>
    rw [complete_of_leads rfl]
    have hsize : ∀ d, (Piece.branch kind l).size = (kind.instr d).size := fun d =>
      (kind.size_instr 0).trans (kind.size_instr d).symm
    constructor
    · intro h
      obtain ⟨t, hl, h⟩ := bind_eq_ok_iff.mp h
      obtain ⟨d, hd, h⟩ := bind_eq_ok_iff.mp h
      cases h
      rw [distanceTo_eq_ok_iff, hsize d, ← Nat.add_assoc] at hd
      exact .branch hl hd
    · intro h
      cases h with
      | branch hl hd =>
        rw [← hsize, Nat.add_assoc, ← distanceTo_eq_ok_iff] at hd
        rw [hl, ok_bind, hd, ok_bind]
        rfl
  | closure l params slots =>
    rw [complete_of_leads rfl]
    constructor
    · intro h
      obtain ⟨t, hl, h⟩ := bind_eq_ok_iff.mp h
      obtain ⟨d, hd, h⟩ := bind_eq_ok_iff.mp h
      cases h
      rw [distanceTo_eq_ok_iff, ← Nat.add_assoc] at hd
      exact .closure hl hd
    · intro h
      cases h with
      | closure hl hd =>
        rw [Nat.add_assoc, ← distanceTo_eq_ok_iff] at hd
        rw [hl, ok_bind]
        exact bind_eq_ok_iff.mpr ⟨_, hd, rfl⟩
  | patch l =>
    rw [complete_of_patches rfl]
    constructor
    · intro h
      obtain ⟨t, hl, h⟩ := bind_eq_ok_iff.mp h
      obtain ⟨address, haddress, h⟩ := bind_eq_ok_iff.mp h
      cases h
      exact .patch hl (operandAddress_eq_ok_iff.mp haddress)
    · intro h
      cases h with
      | patch hl haddress =>
        rw [hl, ok_bind, operandAddress_eq_ok_iff.mpr haddress]
        rfl

theorem complete_eq_error_iff {e : CodeError} :
    b.complete (pos, x) = .error e ↔
      x.Fails (fun l t => b.resolve l = .ok t) (b.origin + pos) e := by
  constructor
  · intro h
    rcases x.plain_or_refers with ⟨i, rfl⟩ | ⟨l, hl⟩ | ⟨l, hl⟩
    · cases h
    · rw [complete_of_leads hl] at h
      rcases bind_eq_error_iff.mp h with hresolve | ⟨t, hresolve, h⟩
      · obtain ⟨hbound, rfl⟩ := resolve_eq_error_iff.mp hresolve
        exact .unbound (.inl hl) hbound
      · rcases bind_eq_error_iff.mp h with hd | ⟨d, -, h⟩
        · obtain ⟨hfar, rfl⟩ := distanceTo_eq_error_iff.mp hd
          rw [← Nat.add_assoc] at hfar ⊢
          exact .far hl hresolve hfar
        · cases h
    · rw [complete_of_patches hl] at h
      rcases bind_eq_error_iff.mp h with hresolve | ⟨t, hresolve, h⟩
      · obtain ⟨hbound, rfl⟩ := resolve_eq_error_iff.mp hresolve
        exact .unbound (.inr hl) hbound
      · rcases bind_eq_error_iff.mp h with haddress | ⟨address, -, h⟩
        · obtain ⟨hhigh, rfl⟩ := operandAddress_eq_error_iff.mp haddress
          rw [← Nat.add_assoc]
          exact .high hl hresolve hhigh
        · cases h
  · intro h
    cases h with
    | @unbound l hl hbound =>
      have hresolve : b.resolve l = .error (.unboundLabel l.index) :=
        resolve_eq_error_iff.mpr ⟨hbound, rfl⟩
      rcases hl with hl | hl
      · rw [complete_of_leads hl, hresolve, error_bind]
      · rw [complete_of_patches hl, hresolve, error_bind]
    | far hl hbound hfar =>
      have hbound : b.resolve _ = .ok _ := hbound
      rw [Nat.add_assoc] at hfar
      rw [complete_of_leads hl, hbound, ok_bind,
        distanceTo_eq_error_iff.mpr ⟨hfar, rfl⟩, error_bind, Nat.add_assoc]
    | high hl hbound hhigh =>
      have hbound : b.resolve _ = .ok _ := hbound
      rw [complete_of_patches hl, hbound, ok_bind,
        operandAddress_eq_error_iff.mpr ⟨hhigh, rfl⟩, error_bind, Nat.add_assoc]

theorem encodable_of_complete {q : Nat × Piece} {i : Instr} (h : b.complete q = .ok i)
    (hall : q.2.skeleton.Encodable) : i.Encodable := by
  obtain ⟨pos, x⟩ := q
  have hbecomes := complete_eq_ok_iff.mp h
  cases hbecomes with
  | plain => exact hall
  | @branch kind => cases kind <;> trivial
  | closure | patch => trivial

end Completing

theorem forall₂_offsets {b : Builder} {pos : Nat} {xs : List Piece} {instrs : List Instr}
    (h : List.Forall₂ (fun q i => b.complete q = .ok i) (placedFrom pos xs) instrs) :
    List.Forall₂ (fun q r => r.1 = q.1 ∧ b.complete q = .ok r.2) (placedFrom pos xs)
      ((offsetsFrom pos instrs).zip instrs) := by
  induction xs generalizing pos instrs with
  | nil =>
    cases h
    exact .nil
  | cons x xs ih =>
    cases h with
    | @cons _ i _ instrs hx hrest =>
      have hsize : i.size = x.size := size_of_complete hx
      rw [offsetsFrom, hsize]
      exact .cons ⟨rfl, hx⟩ (ih hrest)

theorem forall_encodable {b : Builder} {pos : Nat} {xs : List Piece} {instrs : List Instr}
    (h : List.Forall₂ (fun q i => b.complete q = .ok i) (placedFrom pos xs) instrs)
    (hall : ∀ x ∈ xs, x.skeleton.Encodable) : ∀ i ∈ instrs, i.Encodable := by
  induction xs generalizing pos instrs with
  | nil =>
    cases h
    simp
  | cons x xs ih =>
    obtain ⟨hx, hxs⟩ := List.forall_mem_cons.mp hall
    cases h with
    | cons hfirst hrest =>
      exact List.forall_mem_cons.mpr ⟨encodable_of_complete hfirst hx, ih hrest hxs⟩

end Builder
end StackVM
