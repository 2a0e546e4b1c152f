import StackVM.Value.Render

/-! # Overload chains

A chain gathers functions under one name. Adding a chain to a chain adds its members, so a chain
never contains a chain, and adding a chain to itself does nothing.
-/
namespace StackVM

/-- Whether arguments fit a closure: their number, and each declared type. The undefined marker
fits only the root of the types. -/
def Closure.accepts (c : Closure) (args : List Value) : Bool :=
  args.length == c.params.toNat &&
    (c.paramTypes.zip args).all fun (param, arg) =>
      match arg.tag? with
      | some t => t.isSubtype param
      | none => param == .any

inductive Failure
  | argsMismatch
  | implMissing
  deriving DecidableEq

def Failure.kind : Failure → String
  | .argsMismatch => "ArgsMismatch"
  | .implMissing => "ImplMissing"

namespace Store

/-- What a function contributes to a chain it is added to. -/
def members (st : Store) (target : ChainRef) : Function → List Function
  | .chain r => if r = target then [] else (st.chain r).overloads
  | f => [f]

def addOverload (st : Store) (target : ChainRef) (f : Function) : Store :=
  let added := st.members target f
  { st with
    chains := st.chains.modify target.id fun c => { c with overloads := c.overloads ++ added } }

def newChain (st : Store) (name : String) (first : Function) : ChainRef × Store :=
  let ref : ChainRef := ⟨st.chains.size⟩
  (ref, { st with chains := st.chains.push ⟨name, []⟩ }.addOverload ref first)

/-- What a slot holds after `f` is defined as an overload of its content: the same chain extended,
a chain that starts with the function found there, or a chain of `f` alone. -/
def defineOverload (st : Store) (slot : Value) (f : Function) (name : String) : Value × Store :=
  match slot with
  | .func (.chain r) => (slot, st.addOverload r f)
  | .func existing =>
    let (r, st) := st.newChain name existing
    (.func (.chain r), st.addOverload r f)
  | _ =>
    let (r, st) := st.newChain name f
    (.func (.chain r), st)

def dispatchPairs (st : Store) (failure : Failure) (callee : Function) : List (Key × Value) :=
  errorPairs failure.kind [("callee", .str (st.functionName callee))]

def dispatchError (st : Store) (failure : Failure) (callee : Function) : Value × Store :=
  st.newHash (.ofPairs (st.dispatchPairs failure callee))

end Store
end StackVM
