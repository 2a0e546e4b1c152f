import StackVM.Proofs.Code.Building.Commands

/-! # Builders give what they are asked for

A builder finishes exactly when all pieces asked for can be completed, and then with their
instructions; otherwise it reports the first piece that cannot. A builder that was asked for a text
that is too long does not finish.
-/
namespace StackVM
namespace Builder

section Finishing
variable {b : Builder} {xs : List Piece}

/-- A builder whose pieces all have bytes fills them in one by one. -/
theorem Lays.finish_eq (h : b.Lays xs) (hall : ∀ x ∈ xs, x.skeleton.Encodable) :
    b.finish = ((placedFrom 0 xs).mapM b.complete).map fun instrs =>
      ⟨(instrs.flatMap Instr.bytes).toArray⟩ := by
  have herror : b.error = none := by
    rw [h.error, List.findSome?_eq_none_iff]
    exact fun x hx => Piece.refusal?_eq_none_iff.mpr (hall x hx)
  have hbytes : b.bytes = (skeletonBytes xs).toArray := by
    rw [← h.bytes hall, Array.toArray_toList]
  have hfill := b.foldlM_fill xs []
  rw [finish, herror, ← Array.foldlM_toList, h.fixups hall, hbytes]
  exact hfill

theorem Lays.finish_eq_error_iff {e : CodeError} (h : b.Lays xs)
    (hall : ∀ x ∈ xs, x.skeleton.Encodable) :
    b.finish = .error e ↔
      FirstReport (fun q e => b.complete q = .error e) (placedFrom 0 xs) e := by
  rw [h.finish_eq hall, ← mapM_eq_error_iff]
  cases (placedFrom 0 xs).mapM b.complete <;> simp [Except.map]

theorem Lays.exists_decodeAll {p : Program} (h : b.Lays xs)
    (hall : ∀ x ∈ xs, x.skeleton.Encodable) (hp : b.finish = .ok p) :
    ∃ l, p.decodeAll = .ok l ∧
      List.Forall₂ (fun q r => r.1 = q.1 ∧ b.complete q = .ok r.2) (placedFrom 0 xs) l := by
  rw [h.finish_eq hall] at hp
  cases hinstrs : (placedFrom 0 xs).mapM b.complete with
  | error e => simp [hinstrs, Except.map] at hp
  | ok instrs =>
    have hforall := mapM_eq_ok_iff.mp hinstrs
    simp only [hinstrs, Except.map, Except.ok.injEq] at hp
    have hp : Program.ofInstrs instrs = .ok p := by
      rw [Program.ofInstrs_eq_ok_iff, ← hp]
      exact ⟨forall_encodable hforall hall, rfl⟩
    exact ⟨_, Program.decodeAll_of_ofInstrs hp, forall₂_offsets hforall⟩

theorem Lays.exists_finish_textTooLong {x : Piece} {size : Nat} (h : b.Lays xs) (hx : x ∈ xs)
    (hlong : x.TooLong size) :
    ∃ n, b.finish = .error (.textTooLong n) ∧ FirstReport Piece.TooLong xs n := by
  obtain ⟨n, hfirst⟩ := exists_firstReport_iff.mpr ⟨x, hx, size, hlong⟩
  have herror : b.error = some (.textTooLong n) := by
    rw [h.error, findSome?_eq_some_iff_firstReport]
    obtain ⟨before, y, after, heq, hy, hbefore⟩ := hfirst
    refine ⟨before, y, after, heq, Piece.refusal?_eq_some_iff.mpr ⟨n, hy, rfl⟩, ?_⟩
    intro z hz e hrefusal
    obtain ⟨m, hm, -⟩ := Piece.refusal?_eq_some_iff.mp hrefusal
    exact hbefore z hz m hm
  exact ⟨n, by rw [finish, herror], hfirst⟩

end Finishing

section Outcome
variable {origin : Nat} {commands : List Command}

theorem complete_performAll_eq_ok_iff (hall : ∀ x ∈ asked commands, x.skeleton.Encodable)
    {q : Nat × Piece} {i : Instr} :
    ((new origin).performAll commands).complete q = .ok i ↔
      q.2.Becomes (LastBound origin commands) (origin + q.1) i := by
  obtain ⟨pos, x⟩ := q
  simp only [complete_eq_ok_iff, origin_performAll, resolve_performAll origin commands hall]

theorem complete_performAll_eq_error_iff (hall : ∀ x ∈ asked commands, x.skeleton.Encodable)
    {q : Nat × Piece} {e : CodeError} :
    ((new origin).performAll commands).complete q = .error e ↔
      q.2.Fails (LastBound origin commands) (origin + q.1) e := by
  obtain ⟨pos, x⟩ := q
  simp only [complete_eq_error_iff, origin_performAll, resolve_performAll origin commands hall]

theorem finish_performAll_eq_error_iff (hall : ∀ x ∈ asked commands, x.skeleton.Encodable)
    {e : CodeError} :
    ((new origin).performAll commands).finish = .error e ↔
      FirstReport (fun q e => q.2.Fails (LastBound origin commands) (origin + q.1) e)
        (placedFrom 0 (asked commands)) e := by
  simp only [(lays_performAll origin commands).finish_eq_error_iff hall,
    complete_performAll_eq_error_iff hall]

theorem exists_finish_performAll_iff :
    (∃ p, ((new origin).performAll commands).finish = .ok p) ↔
      (∀ x ∈ asked commands, ∀ size, ¬ x.TooLong size) ∧
        ∀ q ∈ placedFrom 0 (asked commands),
          q.2.Fits (LastBound origin commands) (origin + q.1) := by
  by_cases hshort : ∀ x ∈ asked commands, ∀ size, ¬ x.TooLong size
  · have hall : ∀ x ∈ asked commands, x.skeleton.Encodable := fun x hx =>
      Piece.encodable_iff.mpr (hshort x hx)
    rw [and_iff_right hshort, exists_eq_ok_iff]
    simp only [finish_performAll_eq_error_iff hall, exists_firstReport_iff,
      Piece.fits_iff_not_fails lastBound_unique, not_exists, not_and]
  · refine iff_of_false ?_ fun h => hshort h.1
    push Not at hshort
    obtain ⟨x, hx, size, hlong⟩ := hshort
    obtain ⟨n, hfinish, -⟩ :=
      (lays_performAll origin commands).exists_finish_textTooLong hx hlong
    simp [hfinish]

theorem exists_decodeAll_of_finish {p : Program}
    (h : ((new origin).performAll commands).finish = .ok p) :
    ∃ l, p.decodeAll = .ok l ∧
      List.Forall₂
        (fun q r => r.1 = q.1 ∧ q.2.Becomes (LastBound origin commands) (origin + q.1) r.2)
        (placedFrom 0 (asked commands)) l := by
  obtain ⟨hshort, -⟩ := exists_finish_performAll_iff.mp ⟨p, h⟩
  have hall : ∀ x ∈ asked commands, x.skeleton.Encodable := fun x hx =>
    Piece.encodable_iff.mpr (hshort x hx)
  simp only [← complete_performAll_eq_ok_iff hall]
  exact (lays_performAll origin commands).exists_decodeAll hall h

theorem error_of_finish {e : CodeError}
    (h : ((new origin).performAll commands).finish = .error e) :
    (∃ size, e = .textTooLong size ∧ FirstReport Piece.TooLong (asked commands) size) ∨
      (∀ x ∈ asked commands, ∀ size, ¬ x.TooLong size) ∧
        FirstReport (fun q e => q.2.Fails (LastBound origin commands) (origin + q.1) e)
          (placedFrom 0 (asked commands)) e := by
  by_cases hshort : ∀ x ∈ asked commands, ∀ size, ¬ x.TooLong size
  · have hall : ∀ x ∈ asked commands, x.skeleton.Encodable := fun x hx =>
      Piece.encodable_iff.mpr (hshort x hx)
    exact .inr ⟨hshort, (finish_performAll_eq_error_iff hall).mp h⟩
  · push Not at hshort
    obtain ⟨x, hx, size, hlong⟩ := hshort
    obtain ⟨n, hfinish, hfirst⟩ :=
      (lays_performAll origin commands).exists_finish_textTooLong hx hlong
    rw [hfinish] at h
    cases h
    exact .inl ⟨n, rfl, hfirst⟩

end Outcome
end Builder

/-- A builder gives what it was asked for. It finishes exactly if no text literal is too long and
every label fits where it is used; then the program decodes to the pieces in order, with the labels
at the offsets at which they were bound last. Otherwise the error is that of the first text that is
too long, or if there is none, that of the first piece whose label does not fit. -/
theorem finish_performAll_exact (origin : Nat) (commands : List Builder.Command) :
    let result := ((Builder.new origin).performAll commands).finish
    let bound := Builder.LastBound origin commands
    let pieces := placedFrom 0 (Builder.asked commands)
    ((∃ p, result = .ok p) ↔ (∀ x ∈ Builder.asked commands, ∀ size, ¬ x.TooLong size) ∧
      ∀ q ∈ pieces, q.2.Fits bound (origin + q.1)) ∧
    (∀ p, result = .ok p → ∃ l, p.decodeAll = .ok l ∧
      List.Forall₂ (fun q r => r.1 = q.1 ∧ q.2.Becomes bound (origin + q.1) r.2) pieces l) ∧
    ∀ e, result = .error e →
      (∃ size, e = .textTooLong size ∧
        FirstReport Piece.TooLong (Builder.asked commands) size) ∨
      (∀ x ∈ Builder.asked commands, ∀ size, ¬ x.TooLong size) ∧
        FirstReport (fun q e => q.2.Fails bound (origin + q.1) e) pieces e := by
  intro result bound pieces
  refine ⟨Builder.exists_finish_performAll_iff, fun p hp => ?_, fun e he => ?_⟩
  · exact Builder.exists_decodeAll_of_finish hp
  · exact Builder.error_of_finish he

/-- A label that is bound twice with a jump in between, a closure that starts at the front, and a
link to the second place of the label. -/
def Builder.rebinding : List Builder.Command :=
  [.label, .here, .bind ⟨0⟩, .jump .ifTrue ⟨0⟩, .bind ⟨0⟩, .closure ⟨1⟩ 0 2, .link "x" ⟨0⟩]

theorem finish_performAll_exact_rebinding :
    let rows : List (Nat × Instr) :=
      [(0, ⟨.jumpTrue, (0 : Int16)⟩), (3, ⟨.makeClosure, ⟨-8, 0, 2⟩⟩),
      (8, ⟨.pushText, "x"⟩), (11, ⟨.resolveGlobal, ()⟩), (12, ⟨.patch, (104 : UInt16)⟩)]
    (∃ p, ((Builder.new 100).performAll Builder.rebinding).finish = .ok p ∧
      p.decodeAll = .ok rows ∧
      List.Forall₂ (fun q r => r.1 = q.1 ∧
        q.2.Becomes (Builder.LastBound 100 Builder.rebinding) (100 + q.1) r.2)
        (placedFrom 0 (Builder.asked Builder.rebinding)) rows) ∧
    ((Builder.new 0).performAll [.patch ⟨0⟩, .label]).finish = .error (.unboundLabel 0) ∧
    FirstReport (fun q e => q.2.Fails (Builder.LastBound 0 [.patch ⟨0⟩, .label]) (0 + q.1) e)
      (placedFrom 0 (Builder.asked [.patch ⟨0⟩, .label])) (.unboundLabel 0) := by
  intro rows
  have hfinish : ((Builder.new 100).performAll Builder.rebinding).finish =
      .ok ⟨#[19, 0, 0, 22, 248, 255, 0, 2, 6, 1, 120, 9, 10, 104, 0]⟩ := by decide
  have hrows : Program.decodeAll ⟨#[19, 0, 0, 22, 248, 255, 0, 2, 6, 1, 120, 9, 10, 104, 0]⟩ =
      .ok rows := by
    refine Program.decodeAll_eq_ok_iff.mpr ⟨?_, ?_⟩ <;> decide
  have hunbound : ((Builder.new 0).performAll [.patch ⟨0⟩, .label]).finish =
      .error (.unboundLabel 0) := by decide
  obtain ⟨l, hl, hforall⟩ := (finish_performAll_exact 100 Builder.rebinding).2.1 _ hfinish
  obtain rfl := Except.ok.inj (hl.symm.trans hrows)
  refine ⟨⟨_, hfinish, hl, hforall⟩, hunbound, ?_⟩
  rcases (finish_performAll_exact 0 [.patch ⟨0⟩, .label]).2.2 _ hunbound with
    ⟨size, hsize, -⟩ | ⟨-, hfirst⟩
  · cases hsize
  · exact hfirst

end StackVM
