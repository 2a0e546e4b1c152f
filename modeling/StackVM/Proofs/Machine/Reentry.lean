import StackVM.Proofs.Machine.Layers.Steps

/-! # Calls made by natives

A native may call any value and goes on with the answer. The frames and the handlers are then what
they were. The stack need not be: nothing keeps a closure from taking values below its frame and
putting others in their place. If the instructions that were executed took none of the values that
were on the stack, these are what is left.
-/
namespace StackVM

/-- A native calls a value in the first state and is given the answer in the second one, after the
listed configurations. -/
inductive Config.Calls (host : Host) (s : State) :
    Value → List Value → List Config → Except Fault MethodResult → State → Prop
  | value {found : Value} {args : List Value} {exception : Value} {s' : State} :
      (∀ f, found ≠ .func f) → s.withStore (·.notCallable found) = (exception, s') →
      Calls host s found args [] (.ok (.exception exception)) s'
  | function {f : Function} {args : List Value} {resume resume' : Resume} {rest : List Pending}
      {cs : List Config} {c : Config} {answer : Except Fault MethodResult} {s' : State} :
      Trace host ⟨.dispatch f args, .native args resume :: rest, s⟩ cs c →
      (∀ x ∈ cs, x.Waits rest) → Replies c answer s' resume' rest →
      Calls host s (.func f) args cs answer s'

namespace Config
variable {host : Host} {s s' : State} {callee : Value} {args : List Value} {cs : List Config}
  {answer : Except Fault MethodResult}

/-- While a native waits for an answer, what happens stays above the context in which it called. -/
theorem Calls.shrinks {kept : List Value} (h : Calls host s callee args cs answer s')
    (hroom : s.context.sp ≤ Capacity.stack) (hcalm : ∀ x ∈ cs, ¬ x.Resets host)
    (hstack : kept <:+ s.context.stack) (hkept : ∀ x ∈ cs, ∀ p < kept.length, ¬ x.Removes p) :
    kept <:+ s'.context.stack ∧ s.context.Shrinks kept s'.context := by
  cases h with
  | value _ heq =>
    cases heq
    exact ⟨hstack, .refl kept _⟩
  | @function f args resume resume' rest cs c answer s' htrace hwaits hreply =>
    have hstart : Layers kept (Waiting kept s.context .choosing) rest
        ⟨.dispatch f args, .native args resume :: rest, s⟩ :=
      ⟨[.native args resume], rfl, rfl, hstack, .refl kept _⟩
    have hlayers := htrace.waits hroom hstart hcalm hkept (fun x hx => (hwaits x hx).1) hreply.waits
    exact (hlayers.replies (Waiting.carries _ _ _ _) hreply).2

end Config

/-- The answer to a call that a native makes finds the frames and the handlers as they were and no
more values; and the very same values if no instruction took one of them. -/
theorem call_returns_context {host : Host} {s s' : State} {callee : Value} {args : List Value}
    {cs : List Config} {answer : Except Fault MethodResult} (hs : s.context.Reachable host)
    (hcalls : Config.Calls host s callee args cs answer s') (hcalm : ∀ x ∈ cs, ¬ x.Resets host) :
    s'.context.frames = s.context.frames ∧ s'.context.handlers = s.context.handlers ∧
    s'.context.sp ≤ s.context.sp ∧
    ((∀ x ∈ cs, ∀ p < s.context.sp, ¬ x.Removes p) → s'.context.stack = s.context.stack) := by
  obtain ⟨-, hshrinks⟩ := hcalls.shrinks hs.sp_le hcalm List.nil_suffix (by simp)
  refine ⟨hshrinks.frames, hshrinks.handlers, hshrinks.sp, ?_⟩
  intro hkept
  obtain ⟨hstack, -⟩ := hcalls.shrinks hs.sp_le hcalm List.suffix_rfl hkept
  exact (hstack.eq_of_length_le hshrinks.sp).symm

/-- The native `call` is called over one value, with a closure of this body. -/
def Machine.lending (body : List Instr) : Machine where
  program := ⟨(([⟨.pushNull, ()⟩, ⟨.fetchGlobal, (1 : UInt16)⟩, ⟨.fetchGlobal, (0 : UInt16)⟩,
    ⟨.call, (1 : UInt8)⟩] : List Instr) ++ body).flatMap Instr.bytes |>.toArray⟩
  globals := ⟨#[("call", .func (.native ⟨0⟩)), ("f", .func (.closure ⟨0⟩))]⟩
  phase := .linking
  store := { Store.empty with
    natives := #[⟨"call", .builtin .call⟩]
    closures := #[⟨9, 0, 0, [], []⟩] }

def Config.lending (body : List Instr) (n : Nat) : Config :=
  (path Host.none n ((Machine.lending body).runConfig .new 0)).2

theorem Config.reachable_lending (body : List Instr) (n : Nat) :
    (lending body n).state.context.Reachable Host.none :=
  .during .new (trace_path Host.none n _).reaches

/-- The body leaves a block open and a value behind. -/
def Config.untidy : Nat → Config :=
  lending [⟨.tryStart, (0 : Int16)⟩, ⟨.pushTrue, ()⟩, ⟨.pushNull, ()⟩, ⟨.ret, ()⟩]

theorem call_returns_context_untidy :
    (Config.untidy 5).state.context.Reachable Host.none ∧
    ∃ cs s', Config.Calls Host.none (Config.untidy 5).state (.func (.closure ⟨0⟩)) [] cs
        (.ok (.ok .null)) s' ∧
      (∀ x ∈ cs, ¬ x.Resets Host.none) ∧
      (∀ x ∈ cs, ∀ p < (Config.untidy 5).state.context.sp, ¬ x.Removes p) ∧
      s'.context.frames = (Config.untidy 5).state.context.frames ∧
      s'.context.handlers = (Config.untidy 5).state.context.handlers ∧
      s'.context.stack = (Config.untidy 5).state.context.stack := by
  have hreach : (Config.untidy 5).state.context.Reachable Host.none :=
    Config.reachable_lending _ 5
  have hcalls : Config.Calls Host.none (Config.untidy 5).state (.func (.closure ⟨0⟩)) []
      (Config.path Host.none 6 (Config.untidy 5)).1 (.ok (.ok .null)) (Config.untidy 11).state :=
    .function (Config.trace_path Host.none 6 (Config.untidy 5))
      (Config.waits_of_path (by decide) (by decide)) .ended
  have hcalm : ∀ x ∈ (Config.path Host.none 6 (Config.untidy 5)).1, ¬ x.Resets Host.none :=
    fun x hx => (Config.calm_of_path (by decide) [] x hx).1
  have hkept : ∀ x ∈ (Config.path Host.none 6 (Config.untidy 5)).1,
      ∀ p < (Config.untidy 5).state.context.sp, ¬ x.Removes p := by decide
  obtain ⟨hframes, hhandlers, -, hstack⟩ := call_returns_context hreach hcalls hcalm
  exact ⟨hreach, _, _, hcalls, hcalm, hkept, hframes, hhandlers, hstack hkept⟩

/-- The body takes the callee, its argument and the value below them, and puts others there. -/
def Config.greedy : Nat → Config :=
  lending [⟨.pop, ()⟩, ⟨.pop, ()⟩, ⟨.pop, ()⟩, ⟨.pushTrue, ()⟩, ⟨.pushTrue, ()⟩, ⟨.pushTrue, ()⟩,
    ⟨.pushNull, ()⟩, ⟨.ret, ()⟩]

/-- A closure can replace values that the caller of its native had on the stack. The native goes on
as if nothing had happened, and its call instruction leaves the replaced value. -/
theorem call_replaces_values :
    (Config.greedy 5).state.context.Reachable Host.none ∧
    (∃ cs s', Config.Calls Host.none (Config.greedy 5).state (.func (.closure ⟨0⟩)) [] cs
        (.ok (.ok .null)) s' ∧
      (∀ x ∈ cs, ¬ x.Resets Host.none) ∧
      (Config.greedy 5).state.context.stack =
        [.func (.native ⟨0⟩), .func (.closure ⟨0⟩), .null] ∧
      s'.context.stack = [.bool true, .bool true, .bool true]) ∧
    (Config.greedy 1).state.context.stack = [.null] ∧
    (Config.greedy 17).state.context.stack = [.null, .bool true] := by
  have hcalls : Config.Calls Host.none (Config.greedy 5).state (.func (.closure ⟨0⟩)) []
      (Config.path Host.none 10 (Config.greedy 5)).1 (.ok (.ok .null)) (Config.greedy 15).state :=
    .function (Config.trace_path Host.none 10 (Config.greedy 5))
      (Config.waits_of_path (by decide) (by decide)) .ended
  have hcalm : ∀ x ∈ (Config.path Host.none 10 (Config.greedy 5)).1, ¬ x.Resets Host.none :=
    fun x hx => (Config.calm_of_path (by decide) [] x hx).1
  exact ⟨Config.reachable_lending _ 5, ⟨_, _, hcalls, hcalm, by decide, by decide⟩, by decide,
    by decide⟩

end StackVM
