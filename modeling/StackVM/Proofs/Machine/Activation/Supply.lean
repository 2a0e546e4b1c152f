import Mathlib.Logic.Relation
import StackVM.Proofs.Machine.Blame.Position
import StackVM.Proofs.Machine.Fatal.Atomicity
import StackVM.Proofs.Machine.Honesty.Lives
import StackVM.Proofs.Machine.Locality

/-! # What a call passes on

With the built-in natives alone, the state is the same from a call instruction to the entry of the
closure that is chosen for it: a function that declines has only looked at its arguments, and the
native `call` passes on those after the function that it calls.
-/
namespace StackVM

/-- What the object that the first value refers to holds: items, values under keys, overloads, and
variables that were captured. -/
inductive Store.Leads (st : Store) : Value → Value → Prop
  | item {r : ArrRef} {v : Value} : v ∈ st.arr r → Leads st (.arr r) v
  | entry {r : HashRef} {p : Key × Value} : p ∈ st.hash r → Leads st (.hash r) p.2
  | overload {r : ChainRef} {f : Function} :
      f ∈ (st.chain r).overloads → Leads st (.func (.chain r)) (.func f)
  | captured {r : ClosureRef} {scope : LocalsRef} {v : Value} :
      scope ∈ (st.closure r).scope → v ∈ st.slots scope → Leads st (.func (.closure r)) v

/-- The value is on the stack of the run or of a context that the host has kept, in a global, or
in a variable of a call. -/
inductive Moment.Holds (past : Past) (now : Moment) : Value → Prop
  | stack {ctx : Context} {c : Config} {v : Value} :
      now = .run ctx c → v ∈ c.state.context.stack → Holds past now v
  | context {ctx : Context} {v : Value} : Past.Visits past ctx → v ∈ ctx.stack → Holds past now v
  | global {p : String × Value} : p ∈ now.machine.globals.slots → Holds past now p.2
  | slot {r : LocalsRef} {v : Value} : v ∈ now.machine.store.slots r → Holds past now v

/-- The value can be got by following references. -/
def Moment.Offers (past : Past) (now : Moment) (v : Value) : Prop :=
  ∃ u, now.Holds past u ∧ Relation.ReflTransGen now.machine.store.Leads u v

section Following
variable {size : Nat} {st : Store} {u v : Value} {past : Past} {now : Moment}

theorem Store.Coherent.live_of_leads (h : st.Coherent size) (huv : st.Leads u v) : v.Live st := by
  cases huv with
  | @item r _ hv => exact h.arr_live r _ hv
  | @entry r _ hp => exact h.hash_live r _ hp
  | @overload r _ hf => exact (h.overloads_live r _ hf).1
  | captured _ hv => exact h.slots_live _ _ hv

theorem Moment.Coherent.live_of_holds (h : now.Coherent past) (hv : now.Holds past v) :
    v.Live now.machine.store := by
  cases hv with
  | stack hnow hv =>
    subst hnow
    exact (h.config _ _ rfl).state.stack _ hv
  | context hvisits hv => exact h.visited _ hvisits _ hv
  | global hp => exact h.machine.globals _ hp
  | slot hv => exact h.machine.store.slots_live _ _ hv

theorem Moment.Coherent.live_of_offers (h : now.Coherent past) (hv : now.Offers past v) :
    v.Live now.machine.store := by
  obtain ⟨u, hu, hreach⟩ := hv
  cases hreach with
  | refl => exact h.live_of_holds hu
  | tail _ hlast => exact h.machine.store.live_of_leads hlast

end Following

/-- The pending work waits for an implementation to be chosen for these arguments, which come from
a call instruction that was executed in this very state. -/
inductive Past.Supplies (past : Past) (s : State) : List Value → List Pending → Prop
  | instruction {ctx : Context} {base : Base} {pos next : Nat} {rest : List Pending}
      {below : Context} {m : Machine} {callee : Function} {args : List Value} :
      (Moment.run ctx ⟨.run base pos, rest, s⟩, Event.step) ∈ past →
      Config.Calling base rest below m (.func callee) args next ⟨.run base pos, rest, s⟩ →
      Supplies past s args (.call base pos next args.length callee :: rest)
  | search {older : List Function} {missing : Bool} {args : List Value} {rest : List Pending} :
      Supplies past s args rest → Supplies past s args (.overloads older missing args :: rest)
  | native {f : Function} {args : List Value} {rest : List Pending} :
      Supplies past s (.func f :: args) rest →
      Supplies past s args (.native args (Builtin.afterCall (.func f)) :: rest)

/-- If an implementation is being chosen, or none was found, the arguments are those of a call; and
a closure that was chosen has accepted them. -/
def Control.Serves (supplied : List Value → Prop) (st : Store) : Control → Prop
  | .dispatch _ args => supplied args
  | .dispatched (.ok (.enter r)) => ∃ args, supplied args ∧ (st.closure r).accepts args = true
  | .dispatched (.ok (.settled (.failed _))) => ∃ args, supplied args
  | _ => True

section Supplies
variable {past past' : Past} {s : State} {args : List Value} {p : List Pending}

theorem Past.Supplies.mono (h : past.Supplies s args p) (hpast : past ⊆ past') :
    past'.Supplies s args p := by
  induction h with
  | instruction hmem hcalling => exact .instruction (hpast hmem) hcalling
  | search _ ih => exact .search ih
  | native _ ih => exact .native ih

theorem Control.Serves.mono {supplied supplied' : List Value → Prop} {st : Store}
    {control : Control} (h : control.Serves supplied st)
    (hsupplied : ∀ args, supplied args → supplied' args) : control.Serves supplied' st := by
  cases control with
  | run | exited => trivial
  | dispatch f args => exact hsupplied args h
  | dispatched result =>
    cases result with
    | error f => trivial
    | ok chosen =>
      cases chosen with
      | enter r => exact h.imp fun args => And.imp_left (hsupplied args)
      | settled result =>
        cases result with
        | ok | exception => trivial
        | failed why => exact h.imp hsupplied

end Supplies

theorem Context.exists_calling {c : Context} {count : Nat} (h : count < c.sp) :
    ∃ (below : Context) (callee : Value) (args : List Value), args.length = count ∧
      c = below.calling callee args := by
  obtain ⟨stack, frames, handlers⟩ := c
  cases stack with
  | nil => cases h
  | cons callee rest =>
    have hcount : count ≤ rest.length := Nat.lt_succ_iff.mp h
    refine ⟨⟨rest.drop count, frames, handlers⟩, callee, (rest.take count).reverse, ?_, ?_⟩
    · simp [hcount]
    · simp [Context.calling]

namespace Config
variable {past : Past} {c d : Config} {s s' : State} {p : List Pending} {base : Base}
  {pos next count : Nat} {args : List Value} {f : Function} {r : ClosureRef} {g : Frame}

/-- The arguments that a dispatch is started with are those that the instruction found. -/
theorem calling_of_invoke {i : Instr} (hdecode : s.machine.program.decodeAt pos = .ok (i, next))
    (h : Exec.instr base pos next i s = .ok (.invoke f args) s') :
    s' = s ∧ ∃ below, Calling base p below s.machine (.func f) args next
      ⟨.run base pos, p, s⟩ := by
  obtain ⟨op, count⟩ := i
  cases hm : Exec.manages op with
  | false => exact (Exec.instr_trades hm _ _ h).2.elim
  | true =>
    cases op with
    | call =>
      obtain ⟨hlt, rfl⟩ : count.toNat < s.context.sp ∧ s' = s := by
        rcases Exec.call_trades h with ⟨_, _, -, -, hs, hlt⟩ | ⟨_, hraise, -⟩
        · exact ⟨hlt, hs⟩
        · cases hraise
      obtain ⟨below, callee, found, hlength, hcontext⟩ := Context.exists_calling hlt
      obtain ⟨m, ctx⟩ := s'
      dsimp only at hcontext
      subst hcontext
      rw [Exec.instr_call hlength.symm] at h
      by_cases hfunc : ∃ g, callee = .func g
      · obtain ⟨g, rfl⟩ := hfunc
        rw [Exec.call_func] at h
        cases h
        exact ⟨rfl, below, .intro hdecode hlength.symm⟩
      · rw [Exec.call_not_callable fun g hg => hfunc ⟨g, hg⟩] at h
        cases h
    | halt =>
      obtain ⟨-, -, v, heq⟩ := Exec.halt_trades _ _ h
      cases heq
    | ret =>
      obtain ⟨_, _, _, _, -, -, -, -, ⟨-, -, heq, -⟩ | ⟨-, heq, -⟩⟩ :=
        Exec.ret_eq_ok h <;> cases heq
    | tryStart => cases (Exec.tryStart_eq_ok h).1
    | tryEnd => cases (Exec.tryEnd_eq_ok h).1
    | _ => cases hm

/-- While an implementation is chosen for a call, the state is the one the call was made in. -/
def Serves (past : Past) (c : Config) : Prop :=
  c.control.Serves (past.Supplies c.state · c.pending) c.state.machine.store

theorem proceed_serves {result : EStateM.Result Fault State Step}
    (h : ∀ f args t, result = .ok (.invoke f args) t →
      past.Supplies t args (.call base pos next args.length f :: p)) :
    (proceed base pos next p result).Serves past := by
  unfold proceed
  split
  case h_5 => split <;> trivial
  case h_6 f args t => exact h f args t rfl
  all_goals trivial

theorem tryNext_serves (h : past.Supplies s args p) (missing : Bool) (fs : List Function) :
    (tryNext missing args p s fs).Serves past := by
  cases fs with
  | nil => exact ⟨args, h⟩
  | cons f fs => exact .search h

theorem act_afterCall_serves (f : Function) (reply : Except Fault MethodResult) :
    (act p (Builtin.afterCall (.func f) reply s) s).Serves past := by
  cases reply with
  | error e => trivial
  | ok result =>
    rw [act_afterCall]
    cases result <;> trivial

theorem dispatch_serves (h : past.Supplies s args p) (callee : Function) :
    (dispatch Host.none callee args p s).Serves past := by
  cases callee with
  | closure r =>
    simp only [dispatch]
    split
    next haccepts => exact ⟨args, h, haccepts⟩
    next => exact ⟨args, h⟩
  | chain r => exact tryNext_serves h _ _
  | native r =>
    cases hcode : (s.machine.store.native r).code with
    | host key =>
      simp only [dispatch, hcode, NativeCode.body, Host.none]
      exact ⟨args, h⟩
    | builtin b =>
      cases hbody : b.body with
      | pure run =>
        simp only [dispatch, hcode, NativeCode.body, hbody]
        cases hresult : (run s.machine.store args).perform s.machine.store with
        | mk result st =>
          simp only [State.withStore, hresult]
          cases result with
          | ok | exception => trivial
          | failed why =>
            obtain rfl := Builtin.body_declines hbody hresult
            exact ⟨args, h⟩
      | contextual run =>
        obtain ⟨rfl, rfl⟩ : b = .call ∧ run = fun _ => Builtin.callValue := by
          cases b with
          | call => cases hbody; exact ⟨rfl, rfl⟩
          | _ => cases hbody
        simp only [dispatch, hcode, NativeCode.body, hbody]
        cases args with
        | nil => exact ⟨[], h⟩
        | cons callee args =>
          cases callee with
          | func f => exact .native h
          | _ => trivial

theorem deliver_serves {result : Except Fault Dispatch} {work : Pending}
    (h : Serves past ⟨.dispatched result, work :: p, s⟩) (hwork : work.AwaitsCall)
    (hd : deliver result work p s = some d) : d.Serves past := by
  unfold deliver at hd
  split at hd <;> cases hd
  case h_1 | h_2 =>
    obtain ⟨_, hsupplies⟩ := h
    cases hsupplies with
    | search hrest => exact tryNext_serves hrest _ _
  case h_3 =>
    refine Control.Serves.mono h fun args hsupplies => ?_
    cases hsupplies with
    | search hrest => exact hrest
  case h_4 | h_5 =>
    obtain ⟨f, rfl⟩ := hwork
    exact act_afterCall_serves f _
  case h_6 r =>
    obtain ⟨f, rfl⟩ := hwork
    simp only [runClosure]
    split
    · trivial
    · exact act_afterCall_serves f _
  case h_7 => trivial
  case h_8 => exact proceed_serves fun f args t hinvoke => absurd hinvoke not_invoke_of_finishCall

/-- One step: calls come from call instructions, from chains and from the native `call`, and a
function that declines leaves the state to the next one. -/
theorem step_serves {ctx : Context} (h : c.Serves past) (hcalls : c.AwaitsCalls)
    (hmem : (Moment.run ctx c, Event.step) ∈ past) (hstep : step Host.none c = some d) :
    d.Serves past := by
  obtain ⟨control, p, s⟩ := c
  cases control with
  | run base ip =>
    cases hstep
    simp only [fetch]
    split
    · trivial
    next i next hdecode =>
      refine proceed_serves fun f args t hinvoke => ?_
      obtain ⟨rfl, below, hcalling⟩ := calling_of_invoke hdecode hinvoke
      exact .instruction hmem hcalling
  | dispatch callee args =>
    cases hstep
    exact dispatch_serves h callee
  | dispatched result =>
    cases p with
    | nil => cases hstep
    | cons work rest => exact deliver_serves h (hcalls work List.mem_cons_self) hstep
  | exited result =>
    cases p with
    | nil => cases hstep
    | cons work rest =>
      cases work with
      | call | overloads | native => cases hstep
      | nested base savedSp entry resume =>
        obtain ⟨f, rfl⟩ := hcalls _ List.mem_cons_self
        cases hstep
        exact act_afterCall_serves f _

end Config

theorem Life.serves {past : Past} {ctx : Context} {c : Config}
    (h : Life Host.none past (.run ctx c)) : c.AwaitsCalls ∧ c.Serves past := by
  generalize hnow : Moment.run ctx c = now at h
  induction h generalizing ctx c with
  | init => cases hnow
  | next _ hnext ih =>
    subst hnow
    cases hnext with
    | start => exact ⟨List.forall_mem_nil _, trivial⟩
    | step hstep =>
      obtain ⟨hcalls, hserves⟩ := ih rfl
      refine ⟨Config.step_awaits hcalls hstep, ?_⟩
      refine Config.step_serves (hserves.mono fun args hargs => ?_) hcalls List.mem_cons_self hstep
      exact hargs.mono (List.subset_cons_self _ _)

end StackVM
