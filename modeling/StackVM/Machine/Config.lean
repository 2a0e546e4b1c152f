import StackVM.Machine.Builtin
import StackVM.Machine.Execute

/-! # Configurations

A configuration is a state together with what is being done and what waits for it. Runs nest
through natives that call values: below the innermost run waits the native that started it, below
that the call instruction that invoked the native, and so on down to the outermost run. `step`
looks at nothing but the newest piece of pending work, so work further down is untouched until
its turn comes.
-/
namespace StackVM

/-- The choice of an implementation for a call. -/
inductive Dispatch
  | settled (result : MethodResult)
  | enter (closure : ClosureRef)
  deriving DecidableEq

/-- Work that waits for a result. -/
inductive Pending
  | call (base : Base) (pos next count : Nat) (callee : Function)
  | overloads (rest : List Function) (missing : Bool) (args : List Value)
  | native (args : List Value) (resume : Except Fault MethodResult → State → Action)
  | nested (base : Base) (savedSp entry : Nat) (resume : Except Fault MethodResult → State → Action)

instance decidableEqExcept {ε α : Type} [DecidableEq ε] [DecidableEq α] :
    DecidableEq (Except ε α)
  | .ok a, .ok b => decidable_of_iff (a = b) ⟨congrArg Except.ok, Except.ok.inj⟩
  | .error e, .error f => decidable_of_iff (e = f) ⟨congrArg Except.error, Except.error.inj⟩
  | .ok _, .error _ => isFalse (by simp)
  | .error _, .ok _ => isFalse (by simp)

inductive Control
  | run (base : Base) (ip : Nat)
  | dispatch (callee : Function) (args : List Value)
  | dispatched (result : Except Fault Dispatch)
  | exited (result : Except Fault Exit)
  deriving DecidableEq

structure Config where
  control : Control
  pending : List Pending
  state : State

namespace Config

/-- Let a native go on until it is done or waits for a call. -/
def act (pending : List Pending) : Action → State → Config
  | .done result, s => ⟨.dispatched (.ok (.settled result)), pending, s⟩
  | .fault f, s => ⟨.dispatched (.error f), pending, s⟩
  | .edit e resume, s =>
    let (v, s) := s.withStore (·.apply e)
    act pending (resume v) s
  | .call (.func f) args resume, s => ⟨.dispatch f args, .native args resume :: pending, s⟩
  | .call found _ resume, s =>
    let (exception, s) := s.withStore (·.notCallable found)
    act pending (resume (.ok (.exception exception)) s) s
  | .define native resume, s =>
    let (index, m) := s.machine.defineNative native
    act pending (resume index) { s with machine := m }
  | .reset resume, s => act pending resume { s with context := .new }

/-- Try the next overload; if none is left, a missing implementation outweighs a mismatch. -/
def tryNext (missing : Bool) (args : List Value) (pending : List Pending) (s : State) :
    List Function → Config
  | [] =>
    let why := if missing then Failure.implMissing else .argsMismatch
    ⟨.dispatched (.ok (.settled (.failed why))), pending, s⟩
  | f :: rest => ⟨.dispatch f args, .overloads rest missing args :: pending, s⟩

def dispatch (host : Host) (callee : Function) (args : List Value) (pending : List Pending)
    (s : State) : Config :=
  match callee with
  | .closure r =>
    if (s.machine.store.closure r).accepts args then ⟨.dispatched (.ok (.enter r)), pending, s⟩
    else ⟨.dispatched (.ok (.settled (.failed .argsMismatch))), pending, s⟩
  | .native r =>
    match (s.machine.store.native r).code.body host with
    | .pure run =>
      let (result, s) := s.withStore fun st => (run st args).perform st
      ⟨.dispatched (.ok (.settled result)), pending, s⟩
    | .contextual run => act pending (run s args) s
  | .chain r => tryNext false args pending s (s.machine.store.chain r).overloads.reverse

def proceed (base : Base) (pos next : Nat) (pending : List Pending) :
    EStateM.Result Fault State Step → Config
  | .error f s => ⟨.exited (.error f), pending, s⟩
  | .ok .next s => ⟨.run base next, pending, s⟩
  | .ok (.jump target) s => ⟨.run base target, pending, s⟩
  | .ok (.exit e) s => ⟨.exited (.ok e), pending, s⟩
  | .ok (.raise exception) s =>
    match Exec.unwind base pos exception s with
    | .ok (.caught ip) s => ⟨.run base ip, pending, s⟩
    | .ok (.uncaught exception) s => ⟨.exited (.ok (.raised exception)), pending, s⟩
    | .error f s => ⟨.exited (.error f), pending, s⟩
  | .ok (.invoke callee args) s =>
    ⟨.dispatch callee args, .call base pos next args.length callee :: pending, s⟩

def fetch (base : Base) (ip : Nat) (pending : List Pending) (s : State) : Config :=
  match s.machine.program.decodeAt ip with
  | .error e => ⟨.exited (.error (Fault.ofDecode ip e)), pending, s⟩
  | .ok (i, next) => proceed base ip next pending (Exec.instr base ip next i s)

def enter (pos next count : Nat) (r : ClosureRef) : Exec Step := do
  let c := (← Exec.store).closure r
  Exec.requireFrame pos
  let values ← Exec.popN pos (count + 1)
  Exec.pushFrame pos c (values.take count) next (← Exec.context).sp
  return .jump c.entry

/-- Finish a call instruction: only now are the callee and its arguments removed. -/
def finishCall (pos next count : Nat) (callee : Function) : Dispatch → Exec Step
  | .enter r => enter pos next count r
  | .settled (.ok v) => do
    Exec.discard (count + 1)
    Exec.push pos v
    return .next
  | .settled (.exception v) => do
    Exec.discard (count + 1)
    return .raise v
  | .settled (.failed why) => do
    Exec.discard (count + 1)
    return .raise (← Exec.create (·.dispatchError why callee))

/-- Start a run of a closure for a native. -/
def runClosure (r : ClosureRef) (args : List Value)
    (resume : Except Fault MethodResult → State → Action) (pending : List Pending) (s : State) :
    Config :=
  let c := s.machine.store.closure r
  let base : Base := ⟨s.context.depth, s.context.handlerCount, true⟩
  let savedSp := s.context.sp
  match Exec.pushFrame c.entry c args c.entry savedSp s with
  | .ok _ s => ⟨.run base c.entry, .nested base savedSp c.entry resume :: pending, s⟩
  | .error f s => act pending (resume (.error f) s) s

/-- Undo what a nested run that faulted left in the context. -/
def restore (base : Base) (savedSp : Nat) (s : State) : State :=
  let c := s.context
  { s with
    context :=
      { stack := keepOldest savedSp c.stack
        frames := keepOldest base.frames c.frames
        handlers := keepOldest base.handlers c.handlers } }

/-- The result of a nested run for the native that started it. -/
def finishRun (base : Base) (savedSp entry : Nat) (s : State) :
    Except Fault Exit → Except Fault MethodResult × State
  | .ok (.returned v) => (.ok (.ok v), s)
  | .ok (.raised v) => (.ok (.exception v), s)
  | .ok (.halted _) => (.error ⟨entry, .unexpectedHalt⟩, restore base savedSp s)
  | .error f => (.error f, restore base savedSp s)

def deliver (result : Except Fault Dispatch) (work : Pending) (rest : List Pending) (s : State) :
    Option Config :=
  match work, result with
  | .overloads older _ args, .ok (.settled (.failed .implMissing)) =>
    some (tryNext true args rest s older)
  | .overloads older missing args, .ok (.settled (.failed .argsMismatch)) =>
    some (tryNext missing args rest s older)
  | .overloads _ _ _, result => some ⟨.dispatched result, rest, s⟩
  | .native _ resume, .ok (.settled result) => some (act rest (resume (.ok result) s) s)
  | .native _ resume, .error f => some (act rest (resume (.error f) s) s)
  | .native args resume, .ok (.enter r) => some (runClosure r args resume rest s)
  | .call _ _ _ _ _, .error f => some ⟨.exited (.error f), rest, s⟩
  | .call base pos next count callee, .ok d =>
    some (proceed base pos next rest (finishCall pos next count callee d s))
  | .nested _ _ _ _, _ => none

/-- One step; none when the outermost run has ended. -/
def step (host : Host) (c : Config) : Option Config :=
  match c.control, c.pending with
  | .run base ip, pending => some (fetch base ip pending c.state)
  | .dispatch callee args, pending => some (dispatch host callee args pending c.state)
  | .dispatched result, work :: rest => deliver result work rest c.state
  | .exited result, .nested base savedSp entry resume :: rest =>
    let (reply, s) := finishRun base savedSp entry c.state result
    some (act rest (resume reply s) s)
  | .dispatched _, [] => none
  | .exited _, _ => none

def result? (c : Config) : Option (Except Fault Exit × State) :=
  match c.control, c.pending with
  | .exited result, [] => some (result, c.state)
  | _, _ => none

def run (host : Host) : (fuel : Nat) → Config → Option (Except Fault Exit × State)
  | 0, _ => none
  | fuel + 1, c =>
    match c.result? with
    | some r => some r
    | none => (step host c).bind (run host fuel)

end Config
end StackVM
