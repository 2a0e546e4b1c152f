import StackVM.Machine.Builtin
import StackVM.Text.Hex

/-! # A host for probing

A small set of natives with which a program shows how the machine treats it: natives that end in
each possible way, natives that report what they see of the state, and natives that act on it.
-/
namespace StackVM

inductive Probe
  | answer
  | count
  | echo
  | undef
  | mismatch
  | missing
  | raise
  | clib
  | csym
  | phase
  | program
  | info
  | tcall
  | fatal
  | defdyn
  | reset
  deriving DecidableEq, Inhabited

namespace Probe

def all : List Probe :=
  [.answer, .count, .echo, .undef, .mismatch, .missing, .raise, .clib, .csym, .phase, .program,
    .info, .tcall, .fatal, .defdyn, .reset]

def name : Probe → String
  | .answer => "answer"
  | .count => "count"
  | .echo => "echo"
  | .undef => "undef"
  | .mismatch => "mismatch"
  | .missing => "missing"
  | .raise => "raise"
  | .clib => "clib"
  | .csym => "csym"
  | .phase => "phase"
  | .program => "program"
  | .info => "info"
  | .tcall => "tcall"
  | .fatal => "fatal"
  | .defdyn => "defdyn"
  | .reset => "reset"

def ofName? (name : String) : Option Probe := all.find? (·.name == name)

def key (p : Probe) : Nat := p.ctorIdx

def native (p : Probe) (name : String) : Native := ⟨name, .host p.key⟩

def handle (make : UInt64 → Value) : List Value → PureAction
  | .int n :: _ => .done (.ok (make n.toUInt64))
  | _ => .done (.failed .argsMismatch)

def nat (n : Nat) : Value := .int (Int64.ofNat n)

def describe : MethodResult → List Value
  | .ok v => [.str "Ok", v]
  | .exception v => [.str "Exception", v]
  | .failed why => [.str why.kind, .null]

def doneArr (items : List Value) : Action :=
  .edit (.newArr items.toArray) fun v => .done (.ok v)

def tryCall : List Value → Action
  | [] => .done (.failed .argsMismatch)
  | callee :: args =>
    .call callee args fun reply _ =>
      match reply with
      | .ok result => doneArr (describe result)
      | .error f => .fault f

def body : Probe → NativeBody
  | .answer => .pure fun _ _ => .done (.ok (.int 42))
  | .count => .pure fun _ args => .done (.ok (nat args.length))
  | .echo => .pure fun _ args => .edit (.newArr args.toArray) fun v => .done (.ok v)
  | .undef => .pure fun _ _ => .done (.ok .undef)
  | .mismatch => .pure fun _ _ => .done (.failed .argsMismatch)
  | .missing => .pure fun _ _ => .done (.failed .implMissing)
  | .raise => .pure fun _ args => .edit (.newArr args.toArray) fun v => .done (.exception v)
  | .clib => .pure fun _ => handle .clib
  | .csym => .pure fun _ => handle .csym
  | .phase => .contextual fun s _ => .done (.ok (.str s.machine.phase.name))
  | .program => .contextual fun s _ => .done (.ok (.str (Hex.ofBytes s.machine.program.bytes)))
  | .info => .contextual fun s _ =>
    doneArr [nat s.context.sp, nat s.context.depth, nat s.context.handlerCount,
      nat s.machine.globals.size]
  | .tcall => .contextual fun _ => tryCall
  | .fatal => .contextual fun _ _ => .fault ⟨777, .unbalancedTry⟩
  | .defdyn => .contextual fun _ _ =>
    .define (Probe.answer.native "dyn") fun index => .done (.ok (nat index))
  | .reset => .contextual fun _ _ => .reset (.done (.ok (.str "reset")))

/-- The host that knows exactly the probes. -/
def host : Host := fun key =>
  match all[key]? with
  | some p => p.body
  | none => Host.none key

def diagnose (p : Probe) (name : String) : String :=
  s!"Native \x7b name: {Text.quote name}, kind: {Text.quote p.body.kind} \x7d"

end Probe
end StackVM
