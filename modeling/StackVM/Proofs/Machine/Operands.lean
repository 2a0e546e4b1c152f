import StackVM.Proofs.Machine.Atomic.Instructions

/-! # What instructions take from the stack

`Instr.operands` says how many values an instruction takes. `Trades s n post x` says that `x`, if it
has a result, has taken the newest `n` values of the stack of `s`, may have put others in their
place, and has left the frames and the handlers alone; the result satisfies `post`. All
instructions but those for calls and handlers do just that with their operands.
-/
namespace StackVM

/-- How many values an instruction takes from the stack. A call takes its callee and its arguments,
but only when it has been dispatched. -/
def Instr.operands : Instr → Nat
  | ⟨.halt, _⟩ | ⟨.pop, _⟩ | ⟨.ret, _⟩ | ⟨.throw, _⟩ | ⟨.toStr, _⟩ | ⟨.toBool, _⟩ => 1
  | ⟨.jumpTrue, _⟩ | ⟨.jumpFalse, _⟩ | ⟨.resolveGlobal, _⟩ | ⟨.patch, _⟩ => 1
  | ⟨.storeGlobal, _⟩ | ⟨.storeLocal, _⟩ | ⟨.storeUpvar, _⟩ => 1
  | ⟨.defGlobalFun, _⟩ | ⟨.defLocalFun, _⟩ | ⟨.defUpvarFun, _⟩ => 1
  | ⟨.call, count⟩ => count.toNat + 1
  | ⟨.makeArr, count⟩ => count.toNat
  | ⟨.makeStr, count⟩ => count.toNat
  | ⟨.makeHash, pairs⟩ => 2 * pairs.toNat
  | ⟨.makeClosure, e⟩ => e.params.toNat
  | _ => 0

/-- The newest `n` values are gone and others may stand in their place; the rest is the same. -/
structure Context.Traded (n : Nat) (c c' : Context) : Prop where
  enough : n ≤ c.sp
  stack : ∃ pushed, c'.stack = pushed ++ c.stack.drop n
  frames : c'.frames = c.frames
  handlers : c'.handlers = c.handlers
  room : c.sp ≤ Capacity.stack → c'.sp ≤ Capacity.stack

theorem Context.Traded.of_eq {c c' : Context} (h : c' = c) : c.Traded 0 c' := by
  subst h
  exact ⟨Nat.zero_le _, ⟨[], rfl⟩, rfl, rfl, id⟩

theorem Context.Traded.trans {n : Nat} {c c' c'' : Context} (h : c.Traded n c')
    (h' : c'.Traded 0 c'') : c.Traded n c'' := by
  obtain ⟨pushed, hpushed⟩ := h.stack
  obtain ⟨pushed', hpushed'⟩ := h'.stack
  refine ⟨h.enough, ⟨pushed' ++ pushed, ?_⟩, h'.frames.trans h.frames,
    h'.handlers.trans h.handlers, fun hroom => h'.room (h.room hroom)⟩
  rw [hpushed', hpushed, List.drop_zero, List.append_assoc]

theorem Context.Traded.drop {n : Nat} {c : Context} (hn : n ≤ c.sp) :
    c.Traded n { c with stack := c.stack.drop n } := by
  refine ⟨hn, ⟨[], rfl⟩, rfl, rfl, fun hroom => ?_⟩
  simp only [Context.sp, List.length_drop] at *
  omega

/-- The run goes on after the instruction, if only with an exception. -/
def Step.Plain : Step → Prop
  | .exit _ | .invoke _ _ => False
  | _ => True

namespace Exec
variable {α β : Type} {s s' : State} {x : Exec α} {f : α → Exec β} {n pos next : Nat} {base : Base}

def Trades (s : State) (n : Nat) (post : α → Prop) (x : Exec α) : Prop :=
  ∀ a s', x s = .ok a s' → s.context.Traded n s'.context ∧ post a

section Rules
variable {post : β → Prop} {y z : Exec β}

theorem Trades.pure {b : β} (h : post b) : Trades s 0 post (Pure.pure b) := by
  intro _ _ hb
  cases hb
  exact ⟨.of_eq rfl, h⟩

theorem Trades.fault {cause : Cause} : Trades s n post (Exec.fault pos cause) := by
  intro _ _ h
  cases h

theorem Trades.ite {c : Prop} [Decidable c] (hy : c → Trades s n post y)
    (hz : ¬ c → Trades s n post z) : Trades s n post (if c then y else z) := by
  by_cases hc : c
  · rw [if_pos hc]
    exact hy hc
  · rw [if_neg hc]
    exact hz hc

theorem Trades.read (hx : Reads x) (hf : ∀ a, x s = .ok a s → Trades s n post (f a)) :
    Trades s n post (x >>= f) := by
  intro b s' h
  rw [bind_apply] at h
  rcases hx s with ⟨a, ha⟩ | ⟨e, he⟩
  · rw [ha] at h
    exact hf a ha b s' h
  · rw [he] at h
    cases h

theorem Trades.andThen (hx : Trades s n (fun _ => True) x)
    (hf : ∀ a s', Trades s' 0 post (f a)) : Trades s n post (x >>= f) := by
  intro b t h
  rw [bind_apply] at h
  cases hres : x s with
  | ok a s' =>
    rw [hres] at h
    obtain ⟨hrest, hpost⟩ := hf a s' b t h
    exact ⟨(hx a s' hres).1.trans hrest, hpost⟩
  | error e s' =>
    rw [hres] at h
    cases h

theorem Trades.quiet (hx : Quiet x)
    (hf : ∀ a s', s'.context = s.context → Trades s' n post (f a)) :
    Trades s n post (x >>= f) := by
  intro b t h
  obtain ⟨a, s', ha, hcontext⟩ := hx s
  rw [bind_apply, ha] at h
  rw [← hcontext]
  exact hf a s' hcontext b t h

theorem Quiet.trades (hx : Quiet x) (s : State) : Trades s 0 (fun _ => True) x := by
  intro a s' h
  obtain ⟨b, t, hb, ht⟩ := hx s
  rw [hb] at h
  cases h
  exact ⟨.of_eq ht, trivial⟩

end Rules

theorem push_trades (v : Value) : Trades s 0 (fun _ => True) (push pos v) := by
  intro _ s' h
  unfold push at h
  split at h
  next hroom =>
    cases h
    exact ⟨⟨Nat.zero_le _, ⟨[v], rfl⟩, rfl, rfl, fun _ => hroom⟩, trivial⟩
  next => cases h

theorem pushNew_trades (make : Store → Value × Store) :
    Trades s 0 (fun _ => True) (pushNew pos make) := by
  intro _ s' h
  unfold pushNew at h
  split at h
  next hroom =>
    cases h
    exact ⟨⟨Nat.zero_le _, ⟨[_], rfl⟩, rfl, rfl, fun _ => hroom⟩, trivial⟩
  next => cases h

theorem discard_trades (hn : n ≤ s.context.sp) : Trades s n (fun _ => True) (discard n) := by
  intro _ s' h
  cases h
  exact ⟨.drop hn, trivial⟩

theorem pop_trades : Trades s 1 (fun _ => True) (pop pos) := by
  intro v s' h
  unfold pop at h
  split at h
  next v' rest hstack =>
    cases h
    refine ⟨⟨?_, ⟨[], ?_⟩, rfl, rfl, fun hroom => ?_⟩, trivial⟩
    · simp [Context.sp, hstack]
    · simp [hstack]
    · simp only [Context.sp, hstack, List.length_cons] at *
      omega
  next => cases h

theorem popN_trades : Trades s n (fun _ => True) (popN pos n) :=
  .read (reads_top n) fun _ htop =>
    (discard_trades (le_sp_of_top htop)).andThen fun _ _ => .pure trivial

theorem sp_pos_of_peek {v : Value} (h : peek pos s = .ok v s') : 1 ≤ s.context.sp := by
  unfold peek at h
  split at h
  next v' rest hstack => simp [Context.sp, hstack]
  next => cases h

theorem pushNext_trades (v : Value) : Trades s 0 Step.Plain (pushNext pos v) :=
  (push_trades v).andThen fun _ _ => .pure trivial

theorem dup_trades : Trades s 0 Step.Plain (dup pos) :=
  .read reads_peek fun v _ => pushNext_trades v

theorem drop_trades : Trades s 1 Step.Plain (drop pos) :=
  pop_trades.andThen fun _ _ => .pure trivial

theorem throw_trades : Trades s 1 Step.Plain (throw pos) :=
  pop_trades.andThen fun _ _ => .pure trivial

theorem halt_trades :
    Trades s 1 (fun step => base.nested = false ∧ ∃ v, step = .exit (.halted v))
      (halt base pos) := by
  refine .ite (fun _ => .fault) fun hnested => .read reads_context fun c hc => ?_
  cases hc
  split
  next v rest hstack =>
    have hsp : 1 ≤ s.context.sp := by simp [Context.sp, hstack]
    exact (discard_trades hsp).andThen fun _ _ => .pure ⟨by simpa using hnested, v, rfl⟩
  next => exact .fault

/-- A call that found a function has not taken anything yet. -/
theorem call_trades {count : Nat} {step : Step} (h : call pos count s = .ok step s') :
    (∃ f args, step = .invoke f args ∧ args.length = count ∧ s' = s ∧ count < s.context.sp) ∨
    ∃ v, step = .raise v ∧ s.context.Traded (count + 1) s'.context := by
  have hrequire : count < s.context.sp := by
    by_contra hlt
    have hfail : require pos (count + 1) s = .error ⟨pos, .stackUnderflow⟩ s := if_pos (by omega)
    rw [call, bind_apply, hfail] at h
    cases h
  have hpass : require pos (count + 1) s = .ok () s := if_neg (by omega)
  have htop : top pos (count + 1) s = .ok (s.context.stack.take (count + 1)).reverse s :=
    if_neg (by omega)
  rw [call, bind_apply, hpass] at h
  dsimp only at h
  rw [bind_apply] at h
  rcases reads_peek s with ⟨v, hv⟩ | ⟨e, he⟩
  · rw [hv] at h
    cases v with
    | func g =>
      dsimp only at h
      rw [bind_apply, htop] at h
      cases h
      refine Or.inl ⟨g, _, rfl, ?_, rfl, hrequire⟩
      rw [List.length_take, List.length_reverse, List.length_take]
      unfold Context.sp at hrequire
      omega
    | _ =>
      cases h
      exact Or.inr ⟨_, rfl, .drop hrequire⟩
  · rw [he] at h
    cases h

theorem globalUndefined_trades {post : α → Prop} (index : Nat) :
    Trades s n post (globalUndefined pos index) := .read reads_machine fun _ _ => .fault

theorem popFunction_trades {define : Function → Exec Unit} (hdefine : ∀ g, Quiet (define g)) :
    Trades s 1 Step.Plain (popFunction pos define) := by
  refine pop_trades.andThen fun v s' => ?_
  split
  · exact ((hdefine _).trades _).andThen fun _ _ => .pure trivial
  · exact ((quiet_create _).trades _).andThen fun _ _ => .pure trivial

theorem fetchGlobal_trades (index : Nat) : Trades s 0 Step.Plain (fetchGlobal pos index) := by
  refine .read reads_machine fun m _ => ?_
  split
  · exact .ite (fun _ => globalUndefined_trades index) fun _ => pushNext_trades _
  · exact globalUndefined_trades index

theorem storeGlobal_trades (index : Nat) : Trades s 1 Step.Plain (storeGlobal pos index) := by
  refine .read reads_machine fun m _ => .ite (fun _ => ?_) fun _ => globalUndefined_trades index
  exact pop_trades.andThen fun v s' =>
    ((quiet_setGlobal index v).trades s').andThen fun _ _ => .pure trivial

theorem globalDefined_trades (index : Nat) : Trades s 0 Step.Plain (globalDefined pos index) :=
  .read reads_machine fun _ _ => pushNext_trades _

theorem defGlobalFun_trades (index : Nat) : Trades s 1 Step.Plain (defGlobalFun pos index) := by
  refine .read reads_machine fun m _ => ?_
  split
  · exact globalUndefined_trades index
  · refine popFunction_trades fun g => quiet_machine.bind fun _ => ?_
    exact (quiet_create _).bind fun merged => quiet_setGlobal index merged

theorem storeSlot_trades (r : LocalsRef) (slot : UInt8) :
    Trades s 1 Step.Plain (storeSlot pos r slot) :=
  pop_trades.andThen fun v s' =>
    ((quiet_setSlot r slot v).trades s').andThen fun _ _ => .pure trivial

theorem defSlotFun_trades (r : LocalsRef) (slot : UInt8) (name : String) :
    Trades s 1 Step.Plain (defSlotFun pos r slot name) := by
  refine popFunction_trades fun g => (quiet_slot? r slot).bind fun _ => ?_
  exact (quiet_create _).bind fun merged => quiet_setSlot r slot merged

theorem makeArr_trades (count : Nat) : Trades s count Step.Plain (makeArr pos count) :=
  popN_trades.andThen fun _ _ => (pushNew_trades _).andThen fun _ _ => .pure trivial

theorem makeStr_trades (count : Nat) : Trades s count Step.Plain (makeStr pos count) := by
  refine .read (reads_top count) fun parts hparts => ?_
  split
  · exact .fault
  · exact (discard_trades (le_sp_of_top hparts)).andThen fun _ _ => pushNext_trades _

theorem makeHash_trades (pairs : Nat) : Trades s (2 * pairs) Step.Plain (makeHash pos pairs) := by
  refine popN_trades.andThen fun flat s' => ?_
  split
  · exact (pushNew_trades _).andThen fun _ _ => .pure trivial
  · exact ((quiet_create _).trades _).andThen fun _ _ => .pure trivial

theorem makeClosure_trades (e : EntryPoint) :
    Trades s e.params.toNat Step.Plain (makeClosure pos next e) := by
  refine .ite (fun _ => .fault) fun _ => .read (reads_jumpTarget e.offset) fun entry _ => ?_
  refine .read (reads_top e.params.toNat) fun declared hdeclared => ?_
  refine .read (reads_mapM reads_paramType declared) fun paramTypes _ => ?_
  refine (discard_trades (le_sp_of_top hdeclared)).andThen fun _ s' => ?_
  exact .read reads_context fun ctx _ => (pushNew_trades _).andThen fun _ _ => .pure trivial

theorem convert_trades {g : Value → Store → Value} :
    Trades s 1 Step.Plain (do let v ← pop pos; push pos (g v (← store)); return Step.next) :=
  pop_trades.andThen fun _ _ => .read reads_store fun _ _ => pushNext_trades _

theorem resolveGlobal_trades : Trades s 1 Step.Plain (resolveGlobal pos) := by
  refine .read reads_peek fun v hpeek => ?_
  have hsp := sp_pos_of_peek hpeek
  split
  next name =>
    refine .quiet (quiet_resolveName name) fun index s' hs' => ?_
    rw [← hs'] at hsp
    exact (discard_trades hsp).andThen fun _ _ => pushNext_trades _
  next => exact .fault

theorem writeOperand_trades (hsp : 1 ≤ s.context.sp) (target index : UInt16) :
    Trades s 1 Step.Plain (writeOperand pos target index) := by
  refine .read reads_machine fun m _ => .ite (fun _ => ?_) fun _ => .fault
  refine (discard_trades hsp).andThen fun _ s' => ?_
  split
  · exact ((quiet_modifyMachine _).trades _).andThen fun _ _ => .pure trivial
  · exact .fault

theorem patch_trades (target : UInt16) : Trades s 1 Step.Plain (patch pos target) := by
  refine .read reads_machine fun m _ => .ite (fun _ => ?_) fun _ => .fault
  refine .read reads_peek fun v hpeek => ?_
  split
  · split
    · exact writeOperand_trades (sp_pos_of_peek hpeek) target _
    · exact .fault
  · exact .fault

theorem branch_trades (offset : Int16) (wanted : Bool) :
    Trades s 1 Step.Plain (branch pos next offset wanted) := by
  refine .read (reads_jumpTarget offset) fun target _ => pop_trades.andThen fun v s' => ?_
  refine .read reads_store fun st _ => .ite (fun _ => .pure trivial) fun _ => .pure trivial

/-- The opcodes that end a run, change the frames or the handlers, or leave their operands for
later. -/
def manages : Opcode → Bool
  | .halt | .call | .ret | .tryStart | .tryEnd => true
  | _ => false

/-- An instruction trades exactly its operands. -/
theorem instr_trades {i : Instr} (h : manages i.opcode = false) :
    Trades s i.operands Step.Plain (instr base pos next i) := by
  obtain ⟨op, x⟩ := i
  cases op with
  | halt | call | ret | tryStart | tryEnd => cases h
  | pushNull | pushFalse | pushTrue | pushUndef | pushInt | pushText | pushEmptyStr =>
    exact pushNext_trades _
  | dup => exact dup_trades
  | pop => exact drop_trades
  | resolveGlobal => exact resolveGlobal_trades
  | patch => exact patch_trades _
  | initDone => exact ((quiet_modifyMachine _).trades s).andThen fun _ _ => .pure trivial
  | fetchGlobal => exact fetchGlobal_trades _
  | storeGlobal => exact storeGlobal_trades _
  | globalDefined => exact globalDefined_trades _
  | defGlobalFun => exact defGlobalFun_trades _
  | fetchLocal =>
    exact .read (reads_localSlot _) fun _ _ => .ite (fun _ => .fault) fun _ => pushNext_trades _
  | storeLocal => exact .read (reads_localSlot _) fun found _ => storeSlot_trades found.1 _
  | localDefined => exact .read (reads_localSlot _) fun _ _ => pushNext_trades _
  | defLocalFun => exact .read (reads_localSlot _) fun found _ => defSlotFun_trades found.1 _ _
  | fetchUpvar =>
    exact .read (reads_upvarSlot _) fun _ _ => .ite (fun _ => .fault) fun _ => pushNext_trades _
  | storeUpvar => exact .read (reads_upvarSlot _) fun found _ => storeSlot_trades found.1 _
  | upvarDefined => exact .read (reads_upvarSlot _) fun _ _ => pushNext_trades _
  | defUpvarFun => exact .read (reads_upvarSlot _) fun found _ => defSlotFun_trades found.1 _ _
  | jump => exact .read (reads_jumpTarget _) fun _ _ => .pure trivial
  | jumpTrue | jumpFalse => exact branch_trades _ _
  | makeArr => exact makeArr_trades _
  | makeStr => exact makeStr_trades _
  | makeHash => exact makeHash_trades _
  | makeClosure => exact makeClosure_trades _
  | toStr => exact convert_trades
  | toBool => exact convert_trades
  | throw => exact throw_trades

end Exec
end StackVM
