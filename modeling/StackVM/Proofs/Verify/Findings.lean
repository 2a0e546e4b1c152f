import StackVM.Verify.Basic

/-! # What each finding means

Every round of the verifier is read as the condition under which it reports a finding. The rounds
report findings of different kinds, so a finding is reported exactly when its own condition holds.
-/
namespace StackVM
namespace Decoded

/-- The offset at which linking first ends among some instructions. -/
def endOfLinking? (l : List (Nat × Instr)) : Option Nat :=
  (l.find? (·.2.opcode = .initDone)).map Prod.fst

/-- What a finding says about the program. -/
def Finds (d : Decoded) : Finding → Prop
  | .undecodable _ => False
  | .missingHalt => ∀ pos i, (pos, i) ∈ d.instrs → i.opcode ≠ .halt
  | .targetOutOfRange pos distance => ∃ i, (pos, i) ∈ d.instrs ∧
      i.relative? = some distance ∧ d.target? pos i distance = none
  | .targetNotOnBoundary pos t => ∃ i distance, (pos, i) ∈ d.instrs ∧
      i.relative? = some distance ∧ d.target? pos i distance = some t ∧ d.instrAt? t = none
  | .invalidPatchTarget pos target =>
      (pos, ⟨.patch, target⟩) ∈ d.instrs ∧ d.isGlobalOperand target.toNat = false
  | .patchAfterInitDone pos initDone => ∃ (k : Nat) (target : UInt16),
      d.instrs[k]? = some (pos, ⟨.patch, target⟩) ∧ endOfLinking? (d.instrs.take k) = some initDone
  | .invalidClosure pos params slots => ∃ offset,
      (pos, ⟨.makeClosure, ⟨offset, params, slots⟩⟩) ∈ d.instrs ∧ slots < params
  | .countExceedsStack pos count capacity => ∃ i, (pos, i) ∈ d.instrs ∧
      builtFrom? i = some count ∧ capacity = Capacity.stack ∧ capacity < count

variable {d : Decoded} {pos : Nat} {i : Instr} {f : Finding}

theorem mem_checkHalt_iff : f ∈ d.checkHalt ↔
    f = .missingHalt ∧ ∀ pos i, (pos, i) ∈ d.instrs → i.opcode ≠ .halt := by
  unfold checkHalt
  split <;> grind

theorem mem_checkTarget_iff : f ∈ d.checkTarget pos i ↔ ∃ distance, i.relative? = some distance ∧
    ((d.target? pos i distance = none ∧ f = .targetOutOfRange pos distance) ∨
      ∃ t, d.target? pos i distance = some t ∧ d.instrAt? t = none ∧
        f = .targetNotOnBoundary pos t) := by
  unfold checkTarget
  cases i.relative? with
  | none => simp
  | some distance =>
    cases htarget : d.target? pos i distance with
    | none => simp [htarget]
    | some t => cases hat : d.instrAt? t <;> simp [htarget, hat]

theorem mem_checkLink_iff {initDone? : Option Nat} {target : UInt16} :
    f ∈ d.checkLink initDone? pos target ↔
      (∃ initDone, initDone? = some initDone ∧ f = .patchAfterInitDone pos initDone) ∨
        (d.isGlobalOperand target.toNat = false ∧ f = .invalidPatchTarget pos target) := by
  unfold checkLink
  rw [List.mem_append]
  cases initDone? <;> cases d.isGlobalOperand target.toNat <;> simp

theorem mem_checkLinksFrom_iff {initDone? : Option Nat} {l : List (Nat × Instr)} :
    f ∈ d.checkLinksFrom initDone? l ↔ ∃ (k pos : Nat) (target : UInt16),
      l[k]? = some (pos, ⟨.patch, target⟩) ∧
        f ∈ d.checkLink (initDone?.or (endOfLinking? (l.take k))) pos target := by
  fun_induction checkLinksFrom d initDone? l with
  | case1 => simp
  | case2 initDone? start x rest ih =>
    rw [ih]
    constructor
    · rintro ⟨k, pos, target, hk, hf⟩
      refine ⟨k + 1, pos, target, hk, ?_⟩
      simpa [endOfLinking?, Option.or_assoc] using hf
    · rintro ⟨_ | k, pos, target, hk, hf⟩
      · cases hk
      · refine ⟨k, pos, target, hk, ?_⟩
        simpa [endOfLinking?, Option.or_assoc] using hf
  | case3 initDone? start target rest ih =>
    rw [List.mem_append, ih]
    constructor
    · rintro (hf | ⟨k, pos, target', hk, hf⟩)
      · exact ⟨0, start, target, rfl, by simpa [endOfLinking?] using hf⟩
      · exact ⟨k + 1, pos, target', hk, by simpa [endOfLinking?] using hf⟩
    · rintro ⟨_ | k, pos, target', hk, hf⟩
      · cases hk
        exact Or.inl (by simpa [endOfLinking?] using hf)
      · exact Or.inr ⟨k, pos, target', hk, by simpa [endOfLinking?] using hf⟩
  | case4 initDone? head rest hnotDone hnotPatch ih =>
    obtain ⟨start, op, x⟩ := head
    have hop : op ≠ .initDone := by
      rintro rfl
      exact hnotDone start x rfl
    rw [ih]
    constructor
    · rintro ⟨k, pos, target, hk, hf⟩
      exact ⟨k + 1, pos, target, hk, by simpa [endOfLinking?, hop] using hf⟩
    · rintro ⟨_ | k, pos, target, hk, hf⟩
      · exact absurd (Option.some.inj hk) (hnotPatch pos target)
      · exact ⟨k, pos, target, hk, by simpa [endOfLinking?, hop] using hf⟩

theorem mem_checkClosure_iff : f ∈ checkClosure pos i ↔ ∃ offset params slots,
    i = ⟨.makeClosure, ⟨offset, params, slots⟩⟩ ∧ slots < params ∧
      f = .invalidClosure pos params slots := by
  unfold checkClosure
  split
  next e =>
    obtain ⟨offset, params, slots⟩ := e
    split <;> grind
  next => grind

theorem mem_checkCount_iff : f ∈ checkCount pos i ↔ ∃ count, builtFrom? i = some count ∧
    Capacity.stack < count ∧ f = .countExceedsStack pos count Capacity.stack := by
  unfold checkCount
  split
  next count h => split <;> grind
  next => grind

theorem mem_checkTargets_iff : f ∈ d.checkTargets ↔
    ∃ pos i, (pos, i) ∈ d.instrs ∧ f ∈ d.checkTarget pos i := by
  simp [checkTargets]

theorem mem_checkLimits_iff : f ∈ d.checkLimits ↔
    ∃ pos i, (pos, i) ∈ d.instrs ∧ (f ∈ checkClosure pos i ∨ f ∈ checkCount pos i) := by
  simp [checkLimits]

/-- A finding is reported exactly when what it says is true. -/
theorem mem_findings_iff : f ∈ d.findings ↔ d.Finds f := by
  simp only [findings, List.mem_append, mem_checkHalt_iff, mem_checkTargets_iff,
    mem_checkTarget_iff, checkLinks, mem_checkLinksFrom_iff, Option.none_or, mem_checkLink_iff,
    mem_checkLimits_iff, mem_checkClosure_iff, mem_checkCount_iff]
  cases f with
  | undecodable => simp [Finds]
  | missingHalt => simp [Finds]
  | targetOutOfRange => grind [Finds]
  | targetNotOnBoundary => grind [Finds]
  | invalidPatchTarget => grind [Finds, List.mem_iff_getElem?]
  | patchAfterInitDone => simp [Finds]
  | invalidClosure => grind [Finds]
  | countExceedsStack => grind [Finds]

end Decoded

theorem Program.mem_verify_iff {p : Program} {l : List (Nat × Instr)} (h : p.decodeAll = .ok l)
    {f : Finding} : f ∈ p.verify ↔ (Decoded.mk l p.size).Finds f := by
  unfold verify
  rw [h]
  exact Decoded.mem_findings_iff

end StackVM
