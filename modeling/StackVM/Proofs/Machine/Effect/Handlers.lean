import StackVM.Proofs.Machine.Fatal.Atomicity
import StackVM.Proofs.Machine.Operands
import StackVM.Proofs.Machine.Trace

/-! # What a step does to the context

An instruction trades its operands, installs or removes a handler, enters or leaves a call, or
raises; whatever it does then to the frames and the handlers is told by `Effect`. `Moves` lists the
steps around the instructions as well, so an invariant of the context has one case for each. Here
are the instructions that do more than trade operands.
-/
namespace StackVM

section Oldest
variable {α : Type} {n : Nat} {xs ys : List α}

@[simp] theorem length_keepOldest (n : Nat) (xs : List α) :
    (keepOldest n xs).length = min n xs.length := by
  rw [keepOldest, List.length_drop]
  omega

theorem keepOldest_suffix (n : Nat) (xs : List α) : keepOldest n xs <:+ xs := List.drop_suffix _ _

theorem suffix_keepOldest (h : ys <:+ xs) (hn : ys.length ≤ n) : ys <:+ keepOldest n xs := by
  refine List.suffix_of_suffix_length_le h (keepOldest_suffix n xs) ?_
  have hle := h.length_le
  rw [length_keepOldest]
  omega

theorem keepOldest_eq_of_suffix (h : ys <:+ xs) (hn : ys.length = n) : keepOldest n xs = ys := by
  refine ((suffix_keepOldest h (Nat.le_of_eq hn)).eq_of_length ?_).symm
  have hle := h.length_le
  rw [length_keepOldest]
  omega

end Oldest

/-- What is left of a context when an exception leaves the run. -/
def Context.abandon (base : Base) (c : Context) : Context :=
  match oldest? base.frames c.frames with
  | some f =>
    { c with stack := keepOldest f.savedSp c.stack, frames := keepOldest base.frames c.frames }
  | none => c

/-- The opcodes that can raise an exception. -/
def Opcode.CanRaise (op : Opcode) : Prop := Exec.manages op = false ∨ op = .call

/-- What an instruction that takes `n` values does to the context of its run, and how the run goes
on or ends. -/
inductive Effect (base : Base) : Opcode → Nat → Context → Control → Context → Prop
  | trade {op : Opcode} {n ip : Nat} {c c' : Context} :
      c.Traded n c' → Effect base op n c (.run base ip) c'
  | install {h : Handler} {ip : Nat} {c : Context} :
      h.frames = c.depth → h.sp = c.sp → c.handlerCount < Capacity.handlers →
      Effect base .tryStart 0 c (.run base ip) { c with handlers := h :: c.handlers }
  | uninstall {h : Handler} {hs : List Handler} {ip : Nat} {c : Context} :
      c.handlers = h :: hs → base.handlers ≤ hs.length → h.frames = c.depth →
      Effect base .tryEnd 0 c (.run base ip) { c with handlers := hs }
  | enter {f : Frame} {n ip : Nat} {c : Context} :
      n ≤ c.sp → f.savedSp = c.sp - n → c.depth < Capacity.frames →
      Effect base .call n c (.run base ip) ⟨c.stack.drop n, f :: c.frames, c.handlers⟩
  | ret {v : Value} {below : List Value} {f : Frame} {frames : List Frame} {c : Context} :
      c.stack = v :: below → c.frames = f :: frames → f.savedSp ≤ below.length →
      base.frames ≤ frames.length → ¬ (base.nested = true ∧ frames.length = base.frames) →
      Effect base .ret 1 c (.run base f.returnIp)
        ⟨v :: keepOldest f.savedSp below, frames,
          Exec.dropHandlers base.handlers c.depth c.handlers⟩
  | leave {v : Value} {below : List Value} {f : Frame} {frames : List Frame} {c : Context} :
      c.stack = v :: below → c.frames = f :: frames →
      base.nested = true → frames.length = base.frames →
      Effect base .ret 1 c (.exited (.ok (.returned v)))
        ⟨keepOldest f.savedSp below, frames, Exec.dropHandlers base.handlers c.depth c.handlers⟩
  | halt {v : Value} {c c' : Context} :
      base.nested = false → c.Traded 1 c' → Effect base .halt 1 c (.exited (.ok (.halted v))) c'
  | caught {op : Opcode} {n : Nat} {v : Value} {h : Handler} {hs : List Handler}
      {c c' : Context} :
      op.CanRaise → c.Traded n c' → c'.sp < Capacity.stack → c'.handlers = h :: hs →
      base.handlers ≤ hs.length →
      Effect base op n c (.run base h.catchIp)
        ⟨v :: keepOldest h.sp c'.stack, keepOldest h.frames c'.frames, hs⟩
  | escape {op : Opcode} {n : Nat} {v : Value} {c c' : Context} :
      op.CanRaise → c.Traded n c' → c'.handlers.length ≤ base.handlers →
      Effect base op n c (.exited (.ok (.raised v))) (c'.abandon base)
  | fault {op : Opcode} {f : Fault} {c : Context} : Effect base op 0 c (.exited (.error f)) c

namespace Config

/-- How many values an instruction takes from the stack with the next step. An instruction that
faults takes none. -/
def taken (c : Config) : Nat :=
  match c.control, c.pending with
  | .run base ip, _ =>
    match c.state.machine.program.decodeAt ip with
    | .error _ => 0
    | .ok (i, next) =>
      match Exec.instr base ip next i c.state with
      | .error _ _ | .ok (.invoke _ _) _ => 0
      | .ok _ _ => i.operands
  | .dispatched (.ok d), .call _ pos next count callee :: _ =>
    match finishCall pos next count callee d c.state with
    | .error _ _ => 0
    | .ok _ _ => min (count + 1) c.state.context.sp
  | _, _ => 0

/-- An instruction takes the value at this position off the stack with the next step, if only to
put another in its place. Positions count from the oldest value. -/
def Removes (c : Config) (position : Nat) : Prop :=
  c.state.context.sp - c.taken ≤ position ∧ position < c.state.context.sp

instance (c : Config) (position : Nat) : Decidable (c.Removes position) :=
  inferInstanceAs (Decidable (_ ∧ _))

end Config

/-- An implementation is being chosen for a call. -/
def Control.IsChoosing : Control → Prop
  | .dispatch _ _ | .dispatched _ => True
  | _ => False

/-- Work that waits for such a choice, but is not a call instruction. -/
def Pending.IsPassive : Pending → Prop
  | .overloads _ _ _ | .native _ _ => True
  | _ => False

/-- The steps in which no native empties the context. -/
inductive Config.Moves : Config → Config → Prop
  | fetch {base : Base} {ip next : Nat} {i : Instr} {control : Control} {p : List Pending}
      {s s' : State} :
      s.machine.program.decodeAt ip = .ok (i, next) →
      Effect base i.opcode (taken ⟨.run base ip, p, s⟩) s.context control s'.context →
      Moves ⟨.run base ip, p, s⟩ ⟨control, p, s'⟩
  | stuck {base : Base} {ip : Nat} {f : Fault} {p : List Pending} {s : State} :
      Moves ⟨.run base ip, p, s⟩ ⟨.exited (.error f), p, s⟩
  | invoke {base : Base} {ip next count : Nat} {callee : Function} {args : List Value}
      {p : List Pending} {s : State} :
      Moves ⟨.run base ip, p, s⟩ ⟨.dispatch callee args, .call base ip next count callee :: p, s⟩
  | finish {result : Except Fault Dispatch} {base : Base} {pos next count : Nat}
      {callee : Function} {control : Control} {p : List Pending} {s s' : State} :
      Effect base .call (taken ⟨.dispatched result, .call base pos next count callee :: p, s⟩)
        s.context control s'.context →
      Moves ⟨.dispatched result, .call base pos next count callee :: p, s⟩ ⟨control, p, s'⟩
  | choose {callee : Function} {args : List Value} {control : Control} (works : List Pending)
      {p : List Pending} {s s' : State} :
      control.IsChoosing → (∀ w ∈ works, w.IsPassive) → s'.context = s.context →
      Moves ⟨.dispatch callee args, p, s⟩ ⟨control, works ++ p, s'⟩
  | answer {result : Except Fault Dispatch} {work : Pending} {control : Control}
      (works : List Pending) {p : List Pending} {s s' : State} :
      work.IsPassive → control.IsChoosing → (∀ w ∈ works, w.IsPassive) →
      s'.context = s.context →
      Moves ⟨.dispatched result, work :: p, s⟩ ⟨control, works ++ p, s'⟩
  | start {r : ClosureRef} {args : List Value} {resume : Resume} {base : Base} {entry : Nat}
      {f : Frame} {p : List Pending} {s s' : State} :
      base = ⟨s.context.depth, s.context.handlerCount, true⟩ → f.savedSp = s.context.sp →
      s'.context = { s.context with frames := f :: s.context.frames } →
      s.context.depth < Capacity.frames →
      Moves ⟨.dispatched (.ok (.enter r)), .native args resume :: p, s⟩
        ⟨.run base entry, .nested base s.context.sp entry resume :: p, s'⟩
  | close {result : Except Fault Exit} {base : Base} {savedSp entry : Nat} {resume : Resume}
      {control : Control} (works : List Pending) {p : List Pending} {s s' : State} :
      control.IsChoosing → (∀ w ∈ works, w.IsPassive) →
      s'.context = (finishRun base savedSp entry s result).2.context →
      Moves ⟨.exited result, .nested base savedSp entry resume :: p, s⟩ ⟨control, works ++ p, s'⟩

namespace Exec
variable {base : Base} {s s' : State} {pos next : Nat} {step : Step} {v : Value} {h : Handler}

theorem ownHandler?_eq_some_iff {c : Context} :
    ownHandler? base c = some h ↔
      ∃ hs, c.handlers = h :: hs ∧ base.handlers ≤ hs.length := by
  unfold ownHandler? Context.handlerCount
  cases c.handlers with
  | nil => simp
  | cons h' hs =>
    simp only [List.length_cons, Nat.lt_succ_iff]
    by_cases hle : base.handlers ≤ hs.length
    · rw [if_pos hle]
      simp [hle]
    · rw [if_neg hle]
      simp only [reduceCtorEq, false_iff]
      rintro ⟨hs', heq, hle'⟩
      cases heq
      exact hle hle'

theorem ownHandler?_eq_none_iff {c : Context} :
    ownHandler? base c = none ↔ c.handlers.length ≤ base.handlers := by
  unfold ownHandler? Context.handlerCount
  by_cases hlt : base.handlers < c.handlers.length
  · rw [if_pos hlt, List.head?_eq_none_iff]
    constructor
    · intro hnil
      simp [hnil]
    · intro hle
      omega
  · simp [hlt, Nat.le_of_not_lt hlt]

theorem unwind_caught (hown : ownHandler? base s.context = some h)
    (hroom : s.context.sp < Capacity.stack) :
    unwind base pos v s = .ok (.caught h.catchIp)
      { s with
        context := ⟨v :: keepOldest h.sp s.context.stack, keepOldest h.frames s.context.frames,
          s.context.handlers.tail⟩ } := by
  have hmin : min h.sp s.context.sp < Capacity.stack := by omega
  simp only [unwind, bind_apply, context, hown, if_pos hmin, modifyContext]
  rfl

theorem unwind_uncaught (hown : ownHandler? base s.context = none) :
    unwind base pos v s = .ok (.uncaught v) { s with context := s.context.abandon base } := by
  simp only [unwind, bind_apply, context, hown, Context.abandon]
  cases oldest? base.frames s.context.frames with
  | none => rfl
  | some f => rfl

theorem jumpTarget_eq_ok {offset : Int16} {t : Nat} (ht : jumpTarget pos next offset s = .ok t s') :
    relativeTarget? next offset = some t ∧ s' = s := by
  simp only [jumpTarget, bind_apply, machine] at ht
  cases hfound : (relativeTarget? next offset).filter (· < s.machine.program.size) with
  | none =>
    rw [hfound] at ht
    cases ht
  | some target =>
    rw [hfound] at ht
    cases ht
    exact ⟨(Option.filter_eq_some_iff.mp hfound).1, rfl⟩

theorem tryStart_eq_ok {offset : Int16} (hs : tryStart pos next offset s = .ok step s') :
    step = .next ∧ ∃ h : Handler, relativeTarget? next offset = some h.catchIp ∧
      h.frames = s.context.depth ∧ h.sp = s.context.sp ∧
      s.context.handlerCount < Capacity.handlers ∧
      s' = { s with context := { s.context with handlers := h :: s.context.handlers } } := by
  rw [tryStart, bind_apply] at hs
  cases ht : jumpTarget pos next offset s with
  | error e t =>
    rw [ht] at hs
    cases hs
  | ok catchIp t =>
    obtain ⟨htarget, rfl⟩ := jumpTarget_eq_ok ht
    rw [ht] at hs
    simp only [bind_apply, context, pushHandler] at hs
    by_cases hroom : t.context.handlerCount < Capacity.handlers
    · rw [if_pos hroom] at hs
      cases hs
      exact ⟨rfl, _, htarget, rfl, rfl, hroom, rfl⟩
    · rw [if_neg hroom] at hs
      cases hs

theorem tryEnd_eq_ok (hs : tryEnd base pos s = .ok step s') :
    step = .next ∧ ∃ h hs, s.context.handlers = h :: hs ∧ base.handlers ≤ hs.length ∧
      h.frames = s.context.depth ∧
      s' = { s with context := { s.context with handlers := hs } } := by
  simp only [tryEnd, bind_apply, context] at hs
  cases hown : ownHandler? base s.context with
  | none =>
    rw [hown] at hs
    cases hs
  | some h =>
    obtain ⟨rest, hrest, hle⟩ := ownHandler?_eq_some_iff.mp hown
    rw [hown] at hs
    by_cases hdepth : h.frames = s.context.depth
    · rw [if_pos (by simpa using hdepth)] at hs
      cases hs
      refine ⟨rfl, h, rest, hrest, hle, hdepth, ?_⟩
      simp [hrest]
    · rw [if_neg (by simpa using hdepth)] at hs
      cases hs

theorem ret_eq_ok (hs : ret base pos s = .ok step s') :
    ∃ v below f frames, s.context.stack = v :: below ∧ s.context.frames = f :: frames ∧
      f.savedSp ≤ below.length ∧ base.frames ≤ frames.length ∧
      ((base.nested = true ∧ frames.length = base.frames ∧ step = .exit (.returned v) ∧
          s'.context = ⟨keepOldest f.savedSp below, frames,
            dropHandlers base.handlers s.context.depth s.context.handlers⟩) ∨
        (¬ (base.nested = true ∧ frames.length = base.frames) ∧ step = .jump f.returnIp ∧
          s'.context = ⟨v :: keepOldest f.savedSp below, frames,
            dropHandlers base.handlers s.context.depth s.context.handlers⟩)) := by
  simp only [ret, bind_apply, frame, context] at hs
  cases hframes : s.context.frames with
  | nil =>
    rw [hframes] at hs
    cases hs
  | cons f frames =>
    rw [hframes] at hs
    dsimp only at hs
    have hdepth : s.context.depth = frames.length + 1 := by simp [Context.depth, hframes]
    by_cases hown : s.context.depth ≤ base.frames
    · rw [if_pos hown] at hs
      cases hs
    rw [if_neg hown] at hs
    simp only [bind_apply, context] at hs
    by_cases hsaved : s.context.sp ≤ f.savedSp
    · rw [if_pos hsaved] at hs
      cases hs
    rw [if_neg hsaved, bind_apply, pop] at hs
    cases hstack : s.context.stack with
    | nil =>
      rw [hstack] at hs
      cases hs
    | cons v below =>
      rw [hstack] at hs
      simp only [bind_apply, modifyContext, hframes, List.tail_cons] at hs
      have hsp : s.context.sp = below.length + 1 := by simp [Context.sp, hstack]
      refine ⟨v, below, f, frames, rfl, rfl, by omega, by omega, ?_⟩
      by_cases hexit : base.nested = true ∧ s.context.depth - 1 = base.frames
      · rw [if_pos hexit] at hs
        cases hs
        exact Or.inl ⟨hexit.1, by omega, rfl, rfl⟩
      · rw [if_neg hexit, bind_apply, push] at hs
        refine Or.inr ⟨fun hboth => hexit ⟨hboth.1, by omega⟩, ?_⟩
        split at hs
        next a t hpush =>
          split at hpush
          next =>
            cases hpush
            cases hs
            exact ⟨rfl, rfl⟩
          next => cases hpush
        next => cases hs

theorem raise_trades {i : Instr} (hs : instr base pos next i s = .ok (.raise v) s') :
    i.opcode.CanRaise ∧ s.context.Traded i.operands s'.context := by
  cases hm : manages i.opcode with
  | false => exact ⟨.inl hm, (instr_trades hm _ _ hs).1⟩
  | true =>
    obtain ⟨op, x⟩ := i
    cases op with
    | halt =>
      obtain ⟨-, -, _, hstep⟩ := halt_trades _ _ hs
      cases hstep
    | call =>
      rcases call_trades hs with ⟨_, _, hstep, -⟩ | ⟨_, -, htrade⟩
      · cases hstep
      · exact ⟨.inr rfl, htrade⟩
    | ret =>
      obtain ⟨_, _, _, _, -, -, -, -, ⟨-, -, hstep, -⟩ | ⟨-, hstep, -⟩⟩ := ret_eq_ok hs
      · cases hstep
      · cases hstep
    | tryStart => cases (tryStart_eq_ok hs).1
    | tryEnd => cases (tryEnd_eq_ok hs).1
    | _ => cases hm

end Exec

end StackVM
