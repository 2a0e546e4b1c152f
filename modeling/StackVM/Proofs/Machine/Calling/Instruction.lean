import StackVM.Proofs.Machine.Ongoing.Decided

/-! # Call instructions

A call instruction finds its callee on top of the arguments. What is below them is what the call
leaves, together with its result; or an exception is raised over it. The native `call` is called
like any other and calls its first argument with the others.
-/
namespace StackVM

/-- A callee on top of its arguments, of which the last one is the newest, and of what is below. -/
def Context.calling (below : Context) (callee : Value) (args : List Value) : Context :=
  { below with stack := callee :: (args.reverse ++ below.stack) }

/-- A value on top of what is below. -/
def Context.pushing (below : Context) (v : Value) : Context :=
  { below with stack := v :: below.stack }

/-- The function is the built-in native `call`, or a chain that tries it first. -/
inductive Function.IsCall (st : Store) : Function → Prop
  | native {r : NativeRef} : (st.native r).code = .builtin .call → IsCall st (.native r)
  | chain {r : ChainRef} {older : List Function} {f : NativeRef} :
      (st.chain r).overloads = older ++ [.native f] → (st.native f).code = .builtin .call →
      IsCall st (.chain r)

/-- The run over this pending work executes a call of the value with the arguments, over what is
below them on the stack, and goes on at `next` after it. -/
inductive Config.Calling (base : Base) (rest : List Pending) (below : Context) (m : Machine) :
    Value → List Value → Nat → Config → Prop
  | intro {pos next : Nat} {count : UInt8} {callee : Value} {args : List Value} :
      m.program.decodeAt pos = .ok (⟨.call, count⟩, next) → count.toNat = args.length →
      Calling base rest below m callee args next
        ⟨.run base pos, rest, ⟨m, below.calling callee args⟩⟩

section Calling
variable {below : Context} {callee : Value} {args : List Value} {m : Machine} {pos next : Nat}
  {f : Function} {v : Value}

@[simp] theorem Context.sp_calling :
    (below.calling callee args).sp = below.sp + args.length + 1 := by
  simp [sp, calling]
  omega

theorem Context.drop_calling :
    (below.calling callee args).stack.drop (args.length + 1) = below.stack := by
  simp [calling, List.drop_left']

theorem Context.take_calling :
    ((below.calling callee args).stack.take (args.length + 1)).reverse = args ++ [callee] := by
  simp [calling, List.take_left']

theorem Exec.discard_calling :
    discard (args.length + 1) ⟨m, below.calling callee args⟩ = .ok () ⟨m, below⟩ := by
  simp only [discard, Context.drop_calling]
  rfl

theorem Exec.require_calling :
    require pos (args.length + 1) ⟨m, below.calling callee args⟩ =
      .ok () ⟨m, below.calling callee args⟩ := by
  refine if_neg ?_
  rw [Context.sp_calling]
  omega

theorem Exec.top_calling :
    top pos (args.length + 1) ⟨m, below.calling callee args⟩ =
      .ok (args ++ [callee]) ⟨m, below.calling callee args⟩ := by
  rw [top, Context.take_calling]
  refine if_neg ?_
  rw [Context.sp_calling]
  omega

theorem Exec.call_func :
    call pos args.length ⟨m, below.calling (.func f) args⟩ =
      .ok (.invoke f args) ⟨m, below.calling (.func f) args⟩ := by
  have hpeek : peek pos ⟨m, below.calling (.func f) args⟩ =
      .ok (.func f) ⟨m, below.calling (.func f) args⟩ := rfl
  simp only [call, bind_apply, require_calling, hpeek, top_calling, List.take_left' rfl]
  rfl

theorem Exec.instr_call {base : Base} {count : UInt8} (h : count.toNat = args.length) (s : State) :
    instr base pos next ⟨.call, count⟩ s = call pos args.length s := by
  rw [← h]
  rfl

theorem Exec.call_not_callable (h : ∀ f, callee ≠ .func f) :
    call pos args.length ⟨m, below.calling callee args⟩ =
      .ok (.raise (m.store.notCallable callee).1)
        ⟨{ m with store := (m.store.notCallable callee).2 }, below⟩ := by
  have hpeek : peek pos ⟨m, below.calling callee args⟩ =
      .ok callee ⟨m, below.calling callee args⟩ := rfl
  simp only [call, bind_apply, require_calling, hpeek]
  cases callee with
  | func f => exact absurd rfl (h f)
  | _ =>
    simp only [create, State.withStore, discard_calling]
    rfl

/-- A machine with local variables for a call of the closure. -/
def Machine.newLocals (m : Machine) (c : Closure) (args : List Value) : LocalsRef × Machine :=
  let (slots, store) := m.store.newLocals (initialLocals args c.slots)
  (slots, { m with store := store })

theorem Exec.pushFrame_apply (m : Machine) (c : Closure) (args : List Value) (ctx : Context)
    (pos returnIp savedSp : Nat) (h : ctx.depth < Capacity.frames) :
    pushFrame pos c args returnIp savedSp ⟨m, ctx⟩ = .ok () ⟨(m.newLocals c args).2,
      { ctx with
        frames := ⟨returnIp, savedSp, (m.newLocals c args).1, c.scope⟩ :: ctx.frames }⟩ := by
  simp only [pushFrame, bind_apply, requireFrame, if_pos h]
  rfl

theorem Config.enter_calling {r : ClosureRef} (h : below.depth < Capacity.frames) :
    enter pos next args.length r ⟨m, below.calling callee args⟩ =
      .ok (.jump (m.store.closure r).entry) ⟨(m.newLocals (m.store.closure r) args).2,
        { below with
          frames := ⟨next, below.sp, (m.newLocals (m.store.closure r) args).1,
            (m.store.closure r).scope⟩ :: below.frames }⟩ := by
  have hroom : Exec.requireFrame pos ⟨m, below.calling callee args⟩ =
      .ok () ⟨m, below.calling callee args⟩ := if_pos h
  simp only [enter, Exec.bind_apply, Exec.store, hroom, Exec.popN, Exec.top_calling,
    Exec.discard_calling, Exec.pure_apply, List.take_left' rfl, Exec.context]
  rw [Exec.pushFrame_apply _ _ _ _ _ _ _ h]

theorem Config.enter_crowded {r : ClosureRef} (h : ¬ below.depth < Capacity.frames) :
    enter pos next args.length r ⟨m, below.calling callee args⟩ =
      .error ⟨pos, .frameOverflow⟩ ⟨m, below.calling callee args⟩ := by
  have hroom : Exec.requireFrame pos ⟨m, below.calling callee args⟩ =
      .error ⟨pos, .frameOverflow⟩ ⟨m, below.calling callee args⟩ := if_neg h
  simp only [enter, Exec.bind_apply, Exec.store, hroom]

theorem Config.finishCall_ok (pos next : Nat) (args : List Value)
    (hroom : below.sp < Capacity.stack) :
    finishCall pos next args.length f (.settled (.ok v)) ⟨m, below.calling callee args⟩ =
      .ok .next ⟨m, below.pushing v⟩ := by
  simp only [finishCall, Exec.bind_apply, Exec.discard_calling, Exec.push, if_pos hroom]
  rfl

theorem Config.finishCall_exception (pos next : Nat) (args : List Value) :
    finishCall pos next args.length f (.settled (.exception v)) ⟨m, below.calling callee args⟩ =
      .ok (.raise v) ⟨m, below⟩ := by
  simp only [finishCall, Exec.bind_apply, Exec.discard_calling]
  rfl

theorem Config.finishCall_failed (why : Failure) :
    finishCall pos next args.length f (.settled (.failed why)) ⟨m, below.calling callee args⟩ =
      .ok (.raise (m.store.dispatchError why f).1)
        ⟨{ m with store := (m.store.dispatchError why f).2 }, below⟩ := by
  simp only [finishCall, Exec.bind_apply, Exec.discard_calling]
  rfl

end Calling

/-- What the native does with the answer to its call. -/
def Builtin.afterCall (callee : Value) : Resume := fun reply s =>
  match reply with
  | .ok result => finishCall callee s result
  | .error f => .fault f

/-- The result of the native, and the state in which it is there. -/
def Builtin.reply (callee : Function) (s : State) : MethodResult → MethodResult × State
  | .failed why =>
    let (exception, s) := s.withStore (·.dispatchError why callee)
    (.exception exception, s)
  | result => (result, s)

namespace Config
variable {host : Host} {c y : Config} {base : Base} {rest works waiting : List Pending}
  {below : Context} {m : Machine} {via f : Function} {callee : Value} {args : List Value}
  {next : Nat} {result : MethodResult} {s : State} {work : Pending}

theorem act_afterCall (waiting : List Pending) (f : Function) (result : MethodResult) (s : State) :
    act waiting (Builtin.afterCall (.func f) (.ok result) s) s =
      ⟨.dispatched (.ok (.settled (Builtin.reply f s result).1)), waiting,
        (Builtin.reply f s result).2⟩ := by
  cases result <;> rfl

theorem length_le_act (p : List Pending) (a : Action) (s : State) :
    p.length ≤ (act p a s).pending.length := by
  induction a generalizing s with
  | done | fault => exact Nat.le_refl _
  | edit e resume ih => exact ih _ _
  | define native resume ih => exact ih _ _
  | reset resume ih => exact ih _
  | call callee args resume ih =>
    cases callee with
    | func f => exact Nat.le_succ _
    | _ => exact ih _ _ _

/-- The call of the native comes to the point where it calls its first argument. -/
theorem Calling.starts (host : Host)
    (h : c.Calling base rest below m (.func via) (callee :: args) next)
    (hvia : via.IsCall m.store) :
    ∃ pos works, (∀ w ∈ works, ∃ older missing args, w = .overloads older missing args) ∧
      During host c (act (works ++ .call base pos next (args.length + 1) via :: rest)
        (.call callee args (Builtin.afterCall callee))
        ⟨m, below.calling (.func via) (callee :: args)⟩) := by
  obtain @⟨pos, next, count, _, _, hdecode, hcount⟩ := h
  have hinvoke : step host ⟨.run base pos, rest, ⟨m, below.calling (.func via) (callee :: args)⟩⟩ =
      some ⟨.dispatch via (callee :: args), .call base pos next (args.length + 1) via :: rest,
        ⟨m, below.calling (.func via) (callee :: args)⟩⟩ := by
    rw [step_run hdecode, Exec.instr_call hcount, Exec.call_func]
    rfl
  have hdispatch := During.start.step hinvoke (.inl (Nat.lt_succ_self _))
  have hact : ∀ {r p ctx}, (m.store.native r).code = .builtin .call →
      step host ⟨.dispatch (.native r) (callee :: args), p, ⟨m, ctx⟩⟩ =
        some (act p (.call callee args (Builtin.afterCall callee)) ⟨m, ctx⟩) := by
    intro r p ctx hcode
    have hbody : (m.store.native r).code.body host = .contextual fun _ => Builtin.callValue := by
      rw [hcode]
      rfl
    simp only [step, dispatch, hbody]
    rfl
  cases hvia with
  | native hcode =>
    refine ⟨pos, [], List.forall_mem_nil _, hdispatch.step (hact hcode) ?_⟩
    refine .inl (Nat.lt_of_lt_of_le ?_ (length_le_act _ _ _))
    exact Nat.lt_succ_self _
  | @chain r older f hoverloads hcode =>
    have hnext : step host ⟨.dispatch (.chain r) (callee :: args),
        .call base pos next (args.length + 1) (.chain r) :: rest,
        ⟨m, below.calling (.func (.chain r)) (callee :: args)⟩⟩ =
        some ⟨.dispatch (.native f) (callee :: args),
          .overloads older.reverse false (callee :: args) ::
            .call base pos next (args.length + 1) (.chain r) :: rest,
          ⟨m, below.calling (.func (.chain r)) (callee :: args)⟩⟩ := by
      simp only [step, dispatch, hoverloads, List.reverse_append, List.reverse_singleton,
        List.singleton_append, tryNext]
    have hnative := hdispatch.step hnext (.inl (Nat.lt_succ_of_lt (Nat.lt_succ_self _)))
    refine ⟨pos, [.overloads older.reverse false (callee :: args)], ?_,
      hnative.step (hact hcode) ?_⟩
    · exact List.forall_mem_singleton.mpr ⟨_, _, _, rfl⟩
    · refine .inl (Nat.lt_of_lt_of_le ?_ (length_le_act _ _ _))
      exact Nat.lt_succ_of_lt (Nat.lt_succ_self _)

theorem During.passes (h : During host c ⟨.dispatched (.ok (.settled result)),
      works ++ work :: c.pending, s⟩)
    (hworks : ∀ w ∈ works, ∃ older missing args, w = .overloads older missing args)
    (hresult : ∀ why, result ≠ .failed why) :
    During host c ⟨.dispatched (.ok (.settled result)), work :: c.pending, s⟩ := by
  induction works with
  | nil => exact h
  | cons w works ih =>
    obtain ⟨⟨older, missing, args, rfl⟩, hrest⟩ := List.forall_mem_cons.mp hworks
    refine ih (h.step ?_ (.inl ?_)) hrest
    · cases result with
      | ok | exception => rfl
      | failed why => exact absurd rfl (hresult why)
    · simp only [List.length_append, List.length_cons]
      omega

theorem During.answered
    (h : During host c y) (hreply : Replies y (.ok result) s (Builtin.afterCall (.func f))
      (works ++ work :: c.pending))
    (hworks : ∀ w ∈ works, ∃ older missing args, w = .overloads older missing args) :
    During host c ⟨.dispatched (.ok (.settled (Builtin.reply f s result).1)), work :: c.pending,
      (Builtin.reply f s result).2⟩ := by
  have hstep := (step_of_replies hreply : Config.step host y = _)
  rw [act_afterCall] at hstep
  refine (h.step hstep (.inl ?_)).passes hworks ?_
  · simp only [List.length_append, List.length_cons]
    omega
  · intro why
    cases result <;> nofun

end Config

end StackVM
