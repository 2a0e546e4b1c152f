import StackVM.Proofs.Machine.Instructions.Steering
import StackVM.Proofs.Verify.Promises

/-! # States that stay inside verified code

Code that links itself, closures, frames and handlers all carry positions that outlive the
instruction that made them. The invariant says of all of them at once that they stand at
instructions of the verified listing, or at the end of the program for a return, and that the code
is the verified one up to relinking. Every permitted instruction and every unwinding keeps it.
-/
namespace StackVM
variable {p : Program} {l : List (Nat × Instr)}

/-- Where execution may stand: at an instruction of the listing or at the end of the program. -/
def Landing (p : Program) (l : List (Nat × Instr)) (ip : Nat) : Prop :=
  ip ∈ l.map Prod.fst ∨ ip = p.size

structure Intact (p : Program) (l : List (Nat × Instr)) (sk : Skeleton) : Prop where
  code : Relinked p l sk.program
  closures : ∀ c ∈ sk.closures, c.entry ∈ l.map Prod.fst
  frames : ∀ f ∈ sk.frames, Landing p l f.returnIp
  handlers : ∀ h ∈ sk.handlers, h.catchIp ∈ l.map Prod.fst

theorem mem_of_mem_dropHandlers {owned depth : Nat} {handlers : List Handler} {h : Handler}
    (hm : h ∈ Exec.dropHandlers owned depth handlers) : h ∈ handlers := by
  fun_induction Exec.dropHandlers owned depth handlers with
  | case1 => exact hm
  | case2 first rest _ ih => exact List.mem_cons_of_mem _ (ih hm)
  | case3 first rest _ => exact hm

theorem mem_of_mem_keepOldest {α : Type} {n : Nat} {xs : List α} {x : α}
    (hm : x ∈ keepOldest n xs) : x ∈ xs := List.mem_of_mem_drop hm

namespace Intact
variable {sk : Skeleton}

theorem keepFrames (h : Intact p l sk) {frames : List Frame} {handlers : List Handler}
    (hf : ∀ f ∈ frames, f ∈ sk.frames) (hh : ∀ h ∈ handlers, h ∈ sk.handlers) :
    Intact p l { sk with frames := frames, handlers := handlers } :=
  ⟨h.code, h.closures, fun f hm => h.frames f (hf f hm), fun e hm => h.handlers e (hh e hm)⟩

theorem pushFrame (h : Intact p l sk) {f : Frame} (hf : Landing p l f.returnIp) :
    Intact p l { sk with frames := f :: sk.frames } :=
  ⟨h.code, h.closures, List.forall_mem_cons.mpr ⟨hf, h.frames⟩, h.handlers⟩

theorem pushHandler (h : Intact p l sk) {e : Handler} (he : e.catchIp ∈ l.map Prod.fst) :
    Intact p l { sk with handlers := e :: sk.handlers } :=
  ⟨h.code, h.closures, h.frames, List.forall_mem_cons.mpr ⟨he, h.handlers⟩⟩

theorem pushClosure (h : Intact p l sk) {c : Closure} (hc : c.entry ∈ l.map Prod.fst) :
    Intact p l { sk with closures := sk.closures.push c } := by
  refine ⟨h.code, ?_, h.frames, h.handlers⟩
  intro c' hm
  rcases Array.mem_push.mp hm with hm | rfl
  · exact h.closures c' hm
  · exact hc

theorem relink (h : Intact p l sk) {q : Program} (hq : Relinked p l q) :
    Intact p l { sk with program := q } := ⟨hq, h.closures, h.frames, h.handlers⟩

/-- A reference that the store does not hold reads as a closure that starts at offset zero. -/
theorem entry_mem {s : State} (h : Intact p l s.skeleton) (hv : Verified p l) (r : ClosureRef) :
    (s.machine.store.closure r).entry ∈ l.map Prod.fst := by
  unfold Store.closure
  cases hc : s.machine.store.closures[r.id]? with
  | none => exact hv.zero_mem
  | some c => exact h.closures c (Array.mem_of_getElem? hc)

end Intact

/-- The instruction at `pos` found an integer that is no index for its link. -/
def Misfit (pos : Nat) (i : Instr) (s : State) (f : Fault) : Prop :=
  ∃ target n below, i = ⟨.patch, target⟩ ∧ f = ⟨pos, .invalidPatch target⟩ ∧
    s.context.stack = .int n :: below ∧ ¬ (0 ≤ n.toInt ∧ n.toInt ≤ 65535)

theorem patchable_of_permitted (hv : Verified p l) {q : Program} (hq : Relinked p l q) {pos : Nat}
    {target : UInt16} (hi : Permitted p l pos ⟨.patch, target⟩) :
    Exec.patchable q target.toNat = true := by
  obtain ⟨site, j, haddr, hm, hg⟩ := hi.link target rfl
  obtain ⟨k, hk, -, hop, -⟩ := hq.decodeAt hv.listing hm
  have hat := (Instr.decode_eq_ok_iff_holdsAt.mp hk).2.2
  have hend := Instr.le_size_of_decode hk
  have hsize := Instr.size_of_takesGlobal hg
  dsimp only at hop
  refine Exec.patchable_iff.mpr ⟨site, j.opcode, haddr, ?_, hg, ?_⟩
  · rw [← hop]
    exact (HoldsAt.cons_iff.mp hat).1
  · change target.toNat + 2 ≤ q.bytes.size
    omega

theorem patch_intact (hv : Verified p l) {pos : Nat} {target : UInt16}
    (hi : Permitted p l pos ⟨.patch, target⟩) {s : State} (hs : Intact p l s.skeleton) :
    Exec.Kept (Intact p l) pos (Step.Lands (Landing p l)) (Exec.patch pos target s) ∨
      ∃ f, Exec.patch pos target s = .error f s ∧ Misfit pos ⟨.patch, target⟩ s f := by
  have hpatchable := patchable_of_permitted hv hs.code hi
  obtain ⟨site, j, haddr, hm, hg⟩ := hi.link target rfl
  rcases Exec.patch_apply hpatchable with ⟨index, q, s', heq, hw, hsk⟩ | ⟨f, heq, hpos, hf⟩
  · rw [heq]
    rw [haddr] at hw
    refine Or.inl ⟨?_, trivial⟩
    rw [hsk]
    exact hs.relink (hs.code.writeWord hm hg hw)
  · rcases hf with hordinary | ⟨hcause, n, below, hst, hn⟩
    · rw [heq]
      exact Or.inl ⟨hs, hpos, hordinary⟩
    · refine Or.inr ⟨f, heq, target, n, below, rfl, ?_, hst, ?_⟩
      · obtain ⟨fpos, cause⟩ := f
        cases hpos
        cases hcause
        rfl
      · unfold Exec.indexOperand? at hn
        split at hn
        next => cases hn
        next hfit => exact hfit

/-- A permitted instruction keeps the invariant, goes on at a landing, and blames the code only for
a link whose integer is no index. -/
theorem instr_intact (hv : Verified p l) {base : Base} {pos : Nat} {i : Instr}
    (hi : Permitted p l pos i) {s : State} (hs : Intact p l s.skeleton) :
    Exec.Kept (Intact p l) pos (Step.Lands (Landing p l))
        (Exec.instr base pos (pos + i.size) i s) ∨
      ∃ f, Exec.instr base pos (pos + i.size) i s = .error f s ∧ Misfit pos i s f := by
  cases hsteers : Exec.steers i.opcode with
  | false => exact Or.inl (Exec.instr_safe hsteers s hs)
  | true =>
    have hsize : ∀ t, t < p.size → ∀ sk, Intact p l sk → t < sk.program.size := by
      intro t ht sk hsk
      rw [hsk.code.size_eq]
      exact ht
    obtain ⟨op, x⟩ := i
    cases op with
    | jump =>
      obtain ⟨t, ht, hlt, hm⟩ := hi.target x rfl
      exact Or.inl (Exec.jump_safe ht (hsize t hlt) (Or.inl hm) s hs)
    | jumpTrue | jumpFalse =>
      obtain ⟨t, ht, hlt, hm⟩ := hi.target x rfl
      exact Or.inl (Exec.branch_safe ht (hsize t hlt) (Or.inl hm) _ s hs)
    | tryStart =>
      obtain ⟨t, ht, hlt, hm⟩ := hi.target x rfl
      refine Or.inl (Exec.tryStart_safe ht (hsize t hlt) ?_ s hs)
      intro sk sp hsk
      exact hsk.pushHandler hm
    | makeClosure =>
      obtain ⟨t, ht, hlt, hm⟩ := hi.target x.offset rfl
      have hslots := hi.closure x rfl
      refine Or.inl (Exec.makeClosure_safe ht (hsize t hlt) rfl hslots ?_ s hs)
      intro sk paramTypes scope hsk
      exact hsk.pushClosure hm
    | tryEnd =>
      refine Or.inl (Exec.tryEnd_safe ?_ s hs)
      intro sk hsk _
      exact hsk.keepFrames (fun _ => id) fun _ => List.mem_of_mem_tail
    | ret =>
      refine Or.inl (Exec.ret_safe ?_ s hs)
      intro sk f rest hsk hfr _
      refine ⟨hsk.keepFrames ?_ fun _ => mem_of_mem_dropHandlers, ?_⟩
      · intro g hg
        rw [hfr]
        exact List.mem_cons_of_mem _ hg
      · apply hsk.frames f
        rw [hfr]
        exact List.mem_cons_self ..
    | patch => exact patch_intact hv hi hs
    | _ => cases hsteers

theorem unwind_intact {base : Base} {pos : Nat} {exception : Value} :
    Exec.Safe (Intact p l) pos (fun | .caught ip => Landing p l ip | .uncaught _ => True)
      (Exec.unwind base pos exception) := by
  refine Exec.unwind_safe ?_ ?_
  · intro sk h rest hsk hrest _
    refine ⟨hsk.keepFrames (fun _ => mem_of_mem_keepOldest) ?_, Or.inl ?_⟩
    · intro e he
      rw [hrest]
      exact List.mem_cons_of_mem _ he
    · apply hsk.handlers h
      rw [hrest]
      exact List.mem_cons_self ..
  · intro sk hsk
    exact hsk.keepFrames (fun _ => mem_of_mem_keepOldest) fun _ => id

end StackVM
