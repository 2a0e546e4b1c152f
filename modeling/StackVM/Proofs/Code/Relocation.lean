import StackVM.Proofs.Code.Building.Finishing

/-! # Units for another origin

The same commands, given to a builder with another origin, bind every label as much further on as
the origins are apart. A distance stays what it is, since the label and the next instruction move
together; an address moves with its label. So a unit that is built for a later place is the unit
for offset zero with larger addresses in the pieces that patch a label; a patch with a literal
address stays, like every other instruction.
-/
namespace StackVM

theorem relativeTarget?_eq_some_iff {next target : Nat} {d : Int16} :
    relativeTarget? next d = some target ↔ (next : Int) + d.toInt = target := by
  simp only [relativeTarget?]
  split
  next => rw [Option.some.injEq]; omega
  next => simp only [reduceCtorEq, false_iff]; omega

/-- A piece that was built for offset zero and for the origin `k`, with both instructions. -/
inductive Piece.Moves (k : Nat) : Piece → Instr → Instr → Prop
  | same {x : Piece} {i : Instr} : x.patches? = none → Moves k x i i
  | patch {l : Label} {low high : UInt16} : high.toNat = low.toNat + k →
      Moves k (.patch l) ⟨.patch, low⟩ ⟨.patch, high⟩

/-- A piece at a position of two units, with the instruction that it is in each. -/
structure MovedPiece where
  pos : Nat
  piece : Piece
  low : Instr
  high : Instr

section Moving
variable {k pos : Nat} {commands : List Builder.Command} {x : Piece}

theorem Builder.lastBound_iff_zero {l : Label} {t : Nat} :
    LastBound k commands l t ↔ ∃ u, LastBound 0 commands l u ∧ t = k + u := by
  constructor
  · rintro ⟨n, c, hn, hc, rfl, hlast⟩
    exact ⟨_, ⟨n, c, hn, hc, rfl, hlast⟩, by rw [Nat.zero_add]⟩
  · rintro ⟨u, ⟨n, c, hn, hc, rfl, hlast⟩, rfl⟩
    exact ⟨n, c, hn, hc, by rw [Nat.zero_add], hlast⟩

theorem Piece.Fits.zero (h : x.Fits (Builder.LastBound k commands) (k + pos)) :
    x.Fits (Builder.LastBound 0 commands) (0 + pos) := by
  obtain ⟨hleads, hpatches⟩ := h
  constructor
  · intro l hl
    obtain ⟨t, hbound, hreach⟩ := hleads l hl
    obtain ⟨u, hu, rfl⟩ := Builder.lastBound_iff_zero.mp hbound
    refine ⟨u, hu, ?_⟩
    unfold InReach at hreach ⊢
    omega
  · intro l hl
    obtain ⟨t, hbound, hlow⟩ := hpatches l hl
    obtain ⟨u, hu, rfl⟩ := Builder.lastBound_iff_zero.mp hbound
    exact ⟨u, hu, by omega⟩

/-- A label and the next instruction move together, so the distance between them stays. -/
theorem distance_unique {l : Label} {n t u : Nat} {d e : Int16}
    (ht : Builder.LastBound 0 commands l t) (hu : Builder.LastBound k commands l u)
    (hd : relativeTarget? (0 + pos + n) d = some t)
    (he : relativeTarget? (k + pos + n) e = some u) : e = d := by
  obtain ⟨t', ht', rfl⟩ := Builder.lastBound_iff_zero.mp hu
  have hsame := Builder.lastBound_unique l t t' ht ht'
  rw [relativeTarget?_eq_some_iff] at hd he
  apply Int16.toInt_inj.mp
  omega

theorem Piece.Becomes.moves {i j : Instr}
    (hi : x.Becomes (Builder.LastBound 0 commands) (0 + pos) i)
    (hj : x.Becomes (Builder.LastBound k commands) (k + pos) j) : x.Moves k i j := by
  cases hi with
  | plain =>
    cases hj
    exact .same rfl
  | @branch kind l t d ht hd =>
    cases hj with
    | @branch _ _ u e hu he =>
      rw [kind.size_instr] at hd he
      rw [distance_unique ht hu hd he]
      exact .same rfl
  | closure ht hd =>
    cases hj with
    | closure hu he =>
      rw [distance_unique ht hu hd he]
      exact .same rfl
  | @patch l t low ht hlow =>
    cases hj with
    | @patch _ u high hu hhigh =>
      obtain ⟨t', ht', rfl⟩ := Builder.lastBound_iff_zero.mp hu
      have hsame := Builder.lastBound_unique l t t' ht ht'
      exact .patch (by omega)

theorem Piece.Moves.size_eq {i j : Instr} (h : x.Moves k i j) : i.size = j.size := by
  cases h <;> rfl

theorem exists_movedPieces {placed : List (Nat × Piece)} {l m : List (Nat × Instr)}
    (hl : List.Forall₂
      (fun q r => r.1 = q.1 ∧ q.2.Becomes (Builder.LastBound 0 commands) (0 + q.1) r.2) placed l)
    (hm : List.Forall₂
      (fun q r => r.1 = q.1 ∧ q.2.Becomes (Builder.LastBound k commands) (k + q.1) r.2) placed m) :
    ∃ rows : List MovedPiece, rows.map (fun r => (r.pos, r.piece)) = placed ∧
      rows.map (fun r => (r.pos, r.low)) = l ∧ rows.map (fun r => (r.pos, r.high)) = m ∧
      ∀ r ∈ rows, r.piece.Moves k r.low r.high := by
  induction hl generalizing m with
  | nil =>
    cases hm
    exact ⟨[], rfl, rfl, rfl, by simp⟩
  | @cons q r placed l hfirst _ ih =>
    cases hm with
    | @cons _ r' _ m hfirst' hrest =>
      obtain ⟨hpos, hi⟩ := hfirst
      obtain ⟨hpos', hj⟩ := hfirst'
      obtain ⟨rows, rfl, rfl, rfl, hmoves⟩ := ih hrest
      refine ⟨⟨q.1, q.2, r.2, r'.2⟩ :: rows, rfl, ?_, ?_, ?_⟩
      · rw [← hpos]
        rfl
      · rw [← hpos']
        rfl
      · exact List.forall_mem_cons.mpr ⟨hi.moves hj, hmoves⟩

end Moving

/-- Relocation changes addresses of patches only. Two units that the same commands give for offset
zero and for the origin `k` have the same size and the same instructions at the same positions,
except that the address of a piece that patches a label is larger by `k`. A unit that can be built
for a later place can be built for offset zero. -/
theorem relocation_moves_patches (k : Nat) (commands : List Builder.Command) :
    let low := ((Builder.new 0).performAll commands).finish
    let high := ((Builder.new k).performAll commands).finish
    (∀ p q, low = .ok p → high = .ok q → p.size = q.size ∧
      ∃ rows : List MovedPiece, rows.map (·.piece) = Builder.asked commands ∧
        p.decodeAll = .ok (rows.map fun r => (r.pos, r.low)) ∧
        q.decodeAll = .ok (rows.map fun r => (r.pos, r.high)) ∧
        ∀ r ∈ rows, r.piece.Moves k r.low r.high) ∧
    ((∃ q, high = .ok q) → ∃ p, low = .ok p) := by
  intro low high
  constructor
  · intro p q hp hq
    obtain ⟨l, hl, hlow⟩ := Builder.exists_decodeAll_of_finish hp
    obtain ⟨m, hm, hhigh⟩ := Builder.exists_decodeAll_of_finish hq
    obtain ⟨rows, hplaced, rfl, rfl, hmoves⟩ := exists_movedPieces hlow hhigh
    refine ⟨?_, rows, ?_, hl, hm, hmoves⟩
    · rw [Program.size_of_decodeAll hl, Program.size_of_decodeAll hm]
      apply length_flatMap_bytes_congr
      simp only [List.map_map]
      exact List.map_congr_left fun r hr => (hmoves r hr).size_eq
    · rw [← map_snd_placedFrom 0 (Builder.asked commands), ← hplaced, List.map_map]
      rfl
  · intro h
    obtain ⟨hshort, hfits⟩ := Builder.exists_finish_performAll_iff.mp h
    exact Builder.exists_finish_performAll_iff.mpr ⟨hshort, fun q hq => (hfits q hq).zero⟩

theorem relocation_moves_patches_rebinding :
    ∃ p q, ((Builder.new 0).performAll Builder.rebinding).finish = .ok p ∧
      ((Builder.new 100).performAll Builder.rebinding).finish = .ok q ∧ p ≠ q ∧
      p.size = q.size ∧
      ∃ rows : List MovedPiece, rows.map (·.piece) = Builder.asked Builder.rebinding ∧
        p.decodeAll = .ok (rows.map fun r => (r.pos, r.low)) ∧
        q.decodeAll = .ok (rows.map fun r => (r.pos, r.high)) ∧
        ∀ r ∈ rows, r.piece.Moves 100 r.low r.high := by
  have hlow : ((Builder.new 0).performAll Builder.rebinding).finish =
      .ok ⟨#[19, 0, 0, 22, 248, 255, 0, 2, 6, 1, 120, 9, 10, 4, 0]⟩ := by decide
  have hhigh : ((Builder.new 100).performAll Builder.rebinding).finish =
      .ok ⟨#[19, 0, 0, 22, 248, 255, 0, 2, 6, 1, 120, 9, 10, 104, 0]⟩ := by decide
  exact ⟨_, _, hlow, hhigh, by decide,
    (relocation_moves_patches 100 Builder.rebinding).1 _ _ hlow hhigh⟩

end StackVM
