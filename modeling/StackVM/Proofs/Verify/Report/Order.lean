import StackVM.Proofs.Verify.Report.Meaning

/-! # The report of the verifier

Every finding is reported once, round by round and in the order of the offsets within a round.
-/
namespace StackVM

namespace Decoded
variable {d : Decoded} {l : List (Nat × Instr)} {f g : Finding} {pos : Nat} {i : Instr}

theorem before_of_site_lt (hround : f.round = g.round) (hsite : f.site < g.site) : f.Before g :=
  .inr ⟨hround, .inl hsite⟩

theorem pairwise_flatMap {round : Nat} (check : Nat → Instr → List Finding)
    (hl : l.Pairwise (·.1 < ·.1))
    (hsite : ∀ pos i, ∀ f ∈ check pos i, f.round = round ∧ f.site = pos)
    (hcheck : ∀ pos i, (check pos i).Pairwise Finding.Before) :
    (l.flatMap fun (pos, i) => check pos i).Pairwise Finding.Before := by
  rw [List.pairwise_flatMap]
  refine ⟨fun a _ => hcheck a.1 a.2, hl.imp fun {a b} hlt f hf g hg => ?_⟩
  obtain ⟨hround, hpos⟩ := hsite _ _ f hf
  obtain ⟨hround', hpos'⟩ := hsite _ _ g hg
  exact before_of_site_lt (hround.trans hround'.symm) (hpos ▸ hpos' ▸ hlt)

theorem site_of_mem_checkTarget (hf : f ∈ d.checkTarget pos i) : f.round = 1 ∧ f.site = pos := by
  obtain ⟨distance, -, ⟨-, rfl⟩ | ⟨t, -, -, rfl⟩⟩ := mem_checkTarget_iff.mp hf
  · exact ⟨rfl, rfl⟩
  · exact ⟨rfl, rfl⟩

theorem pairwise_checkTargets (h : d.instrs.Pairwise (·.1 < ·.1)) :
    d.checkTargets.Pairwise Finding.Before := by
  refine pairwise_flatMap d.checkTarget h (fun _ _ _ => site_of_mem_checkTarget) fun pos i => ?_
  unfold checkTarget
  cases i.relative? with
  | none => exact .nil
  | some distance =>
    dsimp only
    cases d.target? pos i distance with
    | none => exact List.pairwise_singleton _ _
    | some t =>
      dsimp only
      split
      · exact .nil
      · exact List.pairwise_singleton _ _

theorem site_of_mem_checkLink {initDone? : Option Nat} {target : UInt16}
    (hf : f ∈ d.checkLink initDone? pos target) : f.round = 2 ∧ f.site = pos := by
  obtain ⟨initDone, -, rfl⟩ | ⟨-, rfl⟩ := mem_checkLink_iff.mp hf
  · exact ⟨rfl, rfl⟩
  · exact ⟨rfl, rfl⟩

theorem pairwise_checkLink (initDone? : Option Nat) (target : UInt16) :
    (d.checkLink initDone? pos target).Pairwise Finding.Before := by
  unfold checkLink
  cases initDone? <;> cases d.isGlobalOperand target.toNat <;>
    simp [Finding.Before, Finding.round, Finding.site, Finding.turn]

theorem pairwise_checkLinksFrom (initDone? : Option Nat) (h : l.Pairwise (·.1 < ·.1)) :
    (d.checkLinksFrom initDone? l).Pairwise Finding.Before := by
  fun_induction checkLinksFrom d initDone? l with
  | case1 => exact .nil
  | case2 initDone? start x rest ih => exact ih (List.pairwise_cons.mp h).2
  | case3 initDone? start target rest ih =>
    obtain ⟨hfirst, hrest⟩ := List.pairwise_cons.mp h
    refine List.pairwise_append.mpr ⟨pairwise_checkLink .., ih hrest, fun f hf g hg => ?_⟩
    obtain ⟨k, pos, target', hk, hg⟩ := mem_checkLinksFrom_iff.mp hg
    have hlt : start < pos := hfirst _ (List.mem_of_getElem? hk)
    obtain ⟨hround, hsite⟩ := site_of_mem_checkLink hf
    obtain ⟨hround', hsite'⟩ := site_of_mem_checkLink hg
    exact before_of_site_lt (hround.trans hround'.symm) (hsite ▸ hsite' ▸ hlt)
  | case4 initDone? head rest _ _ ih => exact ih (List.pairwise_cons.mp h).2

theorem site_of_mem_limits (hf : f ∈ checkClosure pos i ++ checkCount pos i) :
    f.round = 3 ∧ f.site = pos := by
  rcases List.mem_append.mp hf with hf | hf
  · obtain ⟨_, _, _, -, -, rfl⟩ := mem_checkClosure_iff.mp hf
    exact ⟨rfl, rfl⟩
  · obtain ⟨_, -, -, rfl⟩ := mem_checkCount_iff.mp hf
    exact ⟨rfl, rfl⟩

theorem pairwise_checkLimits (h : d.instrs.Pairwise (·.1 < ·.1)) :
    d.checkLimits.Pairwise Finding.Before := by
  refine pairwise_flatMap (fun pos i => checkClosure pos i ++ checkCount pos i) h
    (fun _ _ _ => site_of_mem_limits) fun pos i => List.pairwise_append.mpr ⟨?_, ?_, ?_⟩
  · unfold checkClosure
    split
    · split
      · exact List.pairwise_singleton _ _
      · exact .nil
    · exact .nil
  · unfold checkCount
    split
    · split
      · exact List.pairwise_singleton _ _
      · exact .nil
    · exact .nil
  · intro f hf g hg
    obtain ⟨_, _, _, -, -, rfl⟩ := mem_checkClosure_iff.mp hf
    obtain ⟨_, -, -, rfl⟩ := mem_checkCount_iff.mp hg
    exact .inr ⟨rfl, .inr ⟨rfl, Nat.zero_lt_one⟩⟩

/-- All findings come in order, and none comes twice. -/
theorem pairwise_findings (h : d.instrs.Pairwise (·.1 < ·.1)) :
    d.findings.Pairwise Finding.Before := by
  have hhalt : ∀ f ∈ d.checkHalt, f.round = 0 := by
    intro f hf
    obtain ⟨rfl, -⟩ := mem_checkHalt_iff.mp hf
    rfl
  have htargets : ∀ f ∈ d.checkTargets, f.round = 1 := by
    intro f hf
    obtain ⟨_, _, -, hf⟩ := mem_checkTargets_iff.mp hf
    exact (site_of_mem_checkTarget hf).1
  have hlinks : ∀ f ∈ d.checkLinks, f.round = 2 := by
    intro f hf
    obtain ⟨_, _, _, -, hf⟩ := mem_checkLinksFrom_iff.mp hf
    exact (site_of_mem_checkLink hf).1
  have hlimits : ∀ f ∈ d.checkLimits, f.round = 3 := by
    intro f hf
    obtain ⟨_, _, -, hf⟩ := mem_checkLimits_iff.mp hf
    exact (site_of_mem_limits (List.mem_append.mpr hf)).1
  have hfirst : d.checkHalt.Pairwise Finding.Before := by
    unfold checkHalt
    split
    · exact .nil
    · exact List.pairwise_singleton _ _
  simp only [findings, List.pairwise_append, List.mem_append]
  refine ⟨⟨⟨hfirst, pairwise_checkTargets h, ?_⟩, pairwise_checkLinksFrom none h, ?_⟩,
    pairwise_checkLimits h, ?_⟩
  · intro f hf g hg
    left
    rw [hhalt f hf, htargets g hg]
    decide
  · rintro f (hf | hf) g hg
    · left
      rw [hhalt f hf, hlinks g hg]
      decide
    · left
      rw [htargets f hf, hlinks g hg]
      decide
  · rintro f ((hf | hf) | hf) g hg
    · left
      rw [hhalt f hf, hlimits g hg]
      decide
    · left
      rw [htargets f hf, hlimits g hg]
      decide
    · left
      rw [hlinks f hf, hlimits g hg]
      decide

end Decoded

/-- The verifier makes a single finding of a program that does not decode. Of one that decodes it
reports what is true of it, each finding once: the missing halt, then the targets that lie outside
the program or between two instructions, then the links that come too late or write no index, then
the closures without room for their parameters and the instructions that ask for more than the
stack holds, each in the order of the program. So a program passes exactly when it decodes and
nothing is to be reported. -/
theorem verify_exact (p : Program) :
    (∀ e, p.decodeAll = .error e → p.verify = [.undecodable e]) ∧
    (∀ l, p.decodeAll = .ok l → ∀ fs, p.verify = fs ↔
      (∀ f, f ∈ fs ↔ p.Reports f) ∧ fs.Pairwise Finding.Before) ∧
    (p.verify = [] ↔ (∃ l, p.decodeAll = .ok l) ∧ ∀ f, ¬ p.Reports f) := by
  have hfailed : ∀ e, p.decodeAll = .error e → p.verify = [.undecodable e] := by
    intro e he
    rw [Program.verify, he]
  have hdecoded : ∀ l, p.decodeAll = .ok l →
      (∀ f, f ∈ p.verify ↔ p.Reports f) ∧ p.verify.Pairwise Finding.Before := by
    intro l hl
    have hlisting := Program.decodeAll_eq_ok_iff_listing.mp hl
    refine ⟨fun f => (Program.mem_verify_iff hl).trans hlisting.finds_iff, ?_⟩
    rw [Program.verify, hl]
    exact Decoded.pairwise_findings hlisting.pairwise_lt
  refine ⟨hfailed, fun l hl fs => ?_, ?_⟩
  · obtain ⟨hmem, hsorted⟩ := hdecoded l hl
    constructor
    · rintro rfl
      exact ⟨hmem, hsorted⟩
    · rintro ⟨hmem', hsorted'⟩
      exact hsorted.eq_of_mem_iff hsorted' fun {f} => (hmem f).trans (hmem' f).symm
  · cases hl : p.decodeAll with
    | error e => simp [hfailed e hl]
    | ok l =>
      rw [List.eq_nil_iff_forall_not_mem]
      simp only [(hdecoded l hl).1]
      exact ⟨fun h => ⟨⟨l, rfl⟩, h⟩, fun h => h.2⟩

/-- A program without a halt in which every round finds something. -/
def Program.faulty : Program :=
  ⟨([⟨.initDone, ()⟩, ⟨.jump, (100 : Int16)⟩, ⟨.patch, (2 : UInt16)⟩, ⟨.makeClosure, ⟨-6, 3, 2⟩⟩,
    ⟨.makeArr, (2000 : UInt16)⟩] : List Instr).flatMap Instr.bytes |>.toArray⟩

theorem verify_exact_faulty :
    (∃ l, Program.faulty.decodeAll = .ok l) ∧
    Program.faulty.verify = [.missingHalt, .targetOutOfRange 1 100, .targetNotOnBoundary 7 6,
      .patchAfterInitDone 4 0, .invalidPatchTarget 4 2, .invalidClosure 7 3 2,
      .countExceedsStack 12 2000 1024] ∧
    Program.faulty.Reports (.targetNotOnBoundary 7 6) ∧
    ¬ Program.faulty.Reports (.patchAfterInitDone 4 1) ∧
    Program.faulty.verify.Pairwise Finding.Before ∧
    Program.verify ⟨#[255]⟩ = [.undecodable (.invalidOpcode 0 255)] := by
  have hdecode : Program.faulty.decodeAll = .ok [(0, ⟨.initDone, ()⟩), (1, ⟨.jump, (100 : Int16)⟩),
      (4, ⟨.patch, (2 : UInt16)⟩), (7, ⟨.makeClosure, ⟨-6, 3, 2⟩⟩),
      (12, ⟨.makeArr, (2000 : UInt16)⟩)] := by
    refine Program.decodeAll_eq_ok_iff.mpr ⟨?_, ?_⟩ <;> decide
  have hverify : Program.faulty.verify = [.missingHalt, .targetOutOfRange 1 100,
      .targetNotOnBoundary 7 6, .patchAfterInitDone 4 0, .invalidPatchTarget 4 2,
      .invalidClosure 7 3 2, .countExceedsStack 12 2000 1024] := by
    rw [Program.verify, hdecode]
    decide
  obtain ⟨hmem, hsorted⟩ := ((verify_exact Program.faulty).2.1 _ hdecode _).mp rfl
  refine ⟨⟨_, hdecode⟩, hverify, (hmem _).mp ?_, fun h => ?_, hsorted, ?_⟩
  · rw [hverify]
    decide
  · have hreported := (hmem _).mpr h
    rw [hverify] at hreported
    revert hreported
    decide
  · exact (verify_exact ⟨#[255]⟩).1 _ (by decide +kernel)

end StackVM
