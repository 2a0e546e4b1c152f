import StackVM.Proofs.Machine.Instructions.Plain

/-! # What each instruction does to the skeleton

The remaining instructions say which change of the skeleton the invariant has to allow: a return
drops a frame and its handlers, a handler is pushed or dropped, a closure is added, an operand is
written.
-/
namespace StackVM
namespace Exec
variable {J : Skeleton → Prop} {T : Nat → Prop} {pos next : Nat} {base : Base}

/-- The opcodes that read or change the code, the closures, the frames or the handlers. -/
def steers : Opcode → Bool
  | .ret | .jump | .jumpTrue | .jumpFalse | .makeClosure | .tryStart | .tryEnd | .patch => true
  | _ => false

theorem instr_safe {i : Instr} (h : steers i.opcode = false) :
    Safe J pos (Step.Lands T) (instr base pos next i) := by
  obtain ⟨op, x⟩ := i
  cases op with
  | halt => exact halt_safe
  | pushNull | pushFalse | pushTrue | pushUndef | pushInt | pushText | pushEmptyStr =>
    exact pushNext_safe _
  | dup => exact dup_safe
  | pop => exact drop_safe
  | resolveGlobal => exact resolveGlobal_safe
  | initDone => exact initDone_safe
  | fetchGlobal => exact fetchGlobal_safe _
  | storeGlobal => exact storeGlobal_safe _
  | globalDefined => exact globalDefined_safe _
  | defGlobalFun => exact defGlobalFun_safe _
  | fetchLocal => exact fetchLocal_safe x
  | storeLocal => exact storeLocal_safe x
  | localDefined => exact localDefined_safe x
  | defLocalFun => exact defLocalFun_safe x
  | fetchUpvar => exact fetchUpvar_safe x
  | storeUpvar => exact storeUpvar_safe x
  | upvarDefined => exact upvarDefined_safe x
  | defUpvarFun => exact defUpvarFun_safe x
  | call => exact call_safe _
  | makeArr => exact makeArr_safe _
  | makeStr => exact makeStr_safe _
  | makeHash => exact makeHash_safe _
  | toStr => exact toStr_safe
  | toBool => exact toBool_safe
  | throw => exact throw_safe
  | ret | jump | jumpTrue | jumpFalse | makeClosure | tryStart | tryEnd | patch => cases h

theorem jumpTarget_apply {offset : Int16} {t : Nat} (h : relativeTarget? next offset = some t)
    {s : State} (hlt : t < s.machine.program.size) :
    jumpTarget pos next offset s = .ok t s := by
  simp only [jumpTarget, bind_apply, machine, h]
  rw [Option.filter_some_pos (by simpa using hlt)]
  rfl

section Targets
variable {offset : Int16} {t : Nat} (h : relativeTarget? next offset = some t)
  (hlt : ∀ sk, J sk → t < sk.program.size)
include h hlt

theorem jumpTarget_safe : Safe J pos (fun target => target = t) (jumpTarget pos next offset) := by
  intro s hs
  rw [jumpTarget_apply h (hlt _ hs)]
  exact ⟨hs, rfl⟩

theorem jump_safe (ht : T t) : Safe J pos (Step.Lands T) (jump pos next offset) := by
  refine (jumpTarget_safe h hlt).bind ?_
  rintro _ rfl
  exact .pure ht

theorem branch_safe (ht : T t) (wanted : Bool) :
    Safe J pos (Step.Lands T) (branch pos next offset wanted) := by
  refine (jumpTarget_safe h hlt).bind ?_
  rintro _ rfl
  refine pop_safe.andThen fun v => store_safe.andThen fun st => ?_
  exact .ite (fun _ => .pure ht) fun _ => return_next_safe

theorem tryStart_safe
    (hpush : ∀ sk sp, J sk →
      J { sk with handlers := ⟨t, sk.frames.length, sp⟩ :: sk.handlers }) :
    Safe J pos (Step.Lands T) (tryStart pos next offset) := by
  intro s hs
  simp only [tryStart, bind_apply, jumpTarget_apply h (hlt _ hs), context, pushHandler]
  by_cases hroom : s.context.handlerCount < Capacity.handlers
  · rw [if_pos hroom]
    exact ⟨hpush s.skeleton _ hs, trivial⟩
  · rw [if_neg hroom]
    exact ⟨hs, rfl, rfl⟩

theorem makeClosure_safe {e : EntryPoint} (he : e.offset = offset) (hslots : e.params ≤ e.slots)
    (hnew : ∀ sk paramTypes scope, J sk →
      J { sk with closures := sk.closures.push ⟨t, e.params, e.slots, paramTypes, scope⟩ }) :
    Safe J pos (Step.Lands T) (makeClosure pos next e) := by
  refine .ite (fun hlt => absurd hlt (UInt8.not_lt.mpr hslots)) fun _ => ?_
  subst he
  refine (jumpTarget_safe h hlt).bind ?_
  rintro _ rfl
  refine (top_safe e.params.toNat).andThen fun declared => ?_
  refine (mapM_safe paramType_safe declared).andThen fun paramTypes => ?_
  refine (discard_safe e.params.toNat).andThen fun _ => context_safe.andThen fun c => ?_
  refine Safe.andThen (pushNew_safe_of ?_) fun _ => return_next_safe
  intro sk st hst hsk
  simp only [Store.newClosure, hst]
  exact hnew sk paramTypes _ hsk

end Targets

theorem tryEnd_safe
    (hpop : ∀ sk, J sk → base.handlers < sk.handlers.length →
      J { sk with handlers := sk.handlers.tail }) :
    Safe J pos (Step.Lands T) (tryEnd base pos) := by
  intro s hs
  simp only [tryEnd, bind_apply, context]
  by_cases hown : (ownHandler? base s.context).any (·.frames == s.context.depth) = true
  · have hlt : base.handlers < s.context.handlers.length := by
      unfold ownHandler? at hown
      split at hown
      next hlt => exact hlt
      next => cases hown
    rw [if_pos hown]
    exact ⟨hpop s.skeleton hs hlt, trivial⟩
  · rw [if_neg hown]
    exact ⟨hs, rfl, rfl⟩

theorem ret_safe
    (hpop : ∀ sk f rest, J sk → sk.frames = f :: rest → base.frames < sk.frames.length →
      J { sk with frames := rest
                  handlers := dropHandlers base.handlers sk.frames.length sk.handlers } ∧
        T f.returnIp) :
    Safe J pos (Step.Lands T) (ret base pos) := by
  intro s hs
  simp only [ret, bind_apply, frame, context]
  cases hfr : s.context.frames with
  | nil => exact ⟨hs, rfl, rfl⟩
  | cons f rest =>
    dsimp only
    by_cases hown : s.context.depth ≤ base.frames
    · rw [if_pos hown]
      exact ⟨hs, rfl, rfl⟩
    rw [if_neg hown]
    obtain ⟨hkept, hland⟩ := hpop s.skeleton f rest hs hfr (Nat.lt_of_not_le hown)
    simp only [bind_apply, context]
    by_cases hsp : s.context.sp ≤ f.savedSp
    · rw [if_pos hsp]
      exact ⟨hs, rfl, rfl⟩
    rw [if_neg hsp, bind_apply, pop]
    cases hst : s.context.stack with
    | nil => exact ⟨hs, rfl, rfl⟩
    | cons v below =>
      have htail : s.context.frames.tail = rest := by rw [hfr, List.tail_cons]
      simp only [bind_apply, modifyContext, htail]
      by_cases hexit : base.nested = true ∧ s.context.depth - 1 = base.frames
      · rw [if_pos hexit]
        exact ⟨hkept, trivial⟩
      · rw [if_neg hexit]
        have hpush : Safe J pos (Step.Lands T) (do push pos v; return .jump f.returnIp) :=
          (push_safe v).andThen fun _ => .pure hland
        exact hpush _ hkept

/-- Every value left below a handler stays; the frames above it go. -/
theorem unwind_safe {exception : Value}
    (hcatch : ∀ sk h rest, J sk → sk.handlers = h :: rest → base.handlers < sk.handlers.length →
      J { sk with frames := keepOldest h.frames sk.frames, handlers := rest } ∧ T h.catchIp)
    (hleave : ∀ sk, J sk → J { sk with frames := keepOldest base.frames sk.frames }) :
    Safe J pos (fun | .caught ip => T ip | .uncaught _ => True) (unwind base pos exception) := by
  intro s hs
  simp only [unwind, bind_apply, context]
  cases hown : ownHandler? base s.context with
  | some h =>
    dsimp only
    obtain ⟨rest, hrest, hlt⟩ : ∃ rest, s.context.handlers = h :: rest ∧
        base.handlers < s.context.handlers.length := by
      unfold ownHandler? at hown
      split at hown
      next hlt =>
        obtain ⟨rest, hrest⟩ := List.head?_eq_some_iff.mp hown
        exact ⟨rest, hrest, hlt⟩
      next => cases hown
    obtain ⟨hkept, hland⟩ := hcatch s.skeleton h rest hs hrest hlt
    by_cases hroom : min h.sp s.context.sp < Capacity.stack
    · rw [if_pos hroom]
      have htail : s.context.handlers.tail = rest := by rw [hrest, List.tail_cons]
      simp only [bind_apply, modifyContext, htail]
      exact ⟨hkept, hland⟩
    · rw [if_neg hroom]
      exact ⟨hs, rfl, rfl⟩
  | none =>
    dsimp only
    cases oldest? base.frames s.context.frames with
    | some f => exact ⟨hleave s.skeleton hs, trivial⟩
    | none => exact ⟨hs, trivial⟩

theorem pushFrame_safe {c : Closure} {args : List Value} {returnIp savedSp : Nat}
    (hpush : ∀ sk locals, J sk →
      J { sk with frames := ⟨returnIp, savedSp, locals, c.scope⟩ :: sk.frames }) :
    Safe J pos (fun _ => True) (pushFrame pos c args returnIp savedSp) := by
  refine requireFrame_safe.andThen fun _ => Safe.andThen (create_safe fun _ => rfl) fun locals => ?_
  intro s hs
  exact ⟨hpush s.skeleton locals hs, trivial⟩

end Exec
end StackVM
