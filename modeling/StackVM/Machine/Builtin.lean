import StackVM.Machine.Native
import StackVM.Value.Equality

/-! # Built-in natives

Arithmetic and comparison of integers, which wraps around; joining of texts and of arrays; and the
natives `len`, `push`, `throw` and `call`. A native that is given the right number of arguments
but of other types reports that the implementation is missing, so that an overload can take over.
-/
namespace StackVM

namespace Builtin

def onInts (op : Int64 → Int64 → Value) : List Value → PureAction
  | [.int a, .int b] => .done (.ok (op a b))
  | [_, _] => .done (.failed .implMissing)
  | _ => .done (.failed .argsMismatch)

def concatStrs : List Value → PureAction
  | [.str a, .str b] => .done (.ok (.str (a ++ b)))
  | [_, _] => .done (.failed .implMissing)
  | _ => .done (.failed .argsMismatch)

def concatArrs (st : Store) : List Value → PureAction
  | [.arr a, .arr b] => .edit (.newArr (st.arr a ++ st.arr b)) fun v => .done (.ok v)
  | [_, _] => .done (.failed .implMissing)
  | _ => .done (.failed .argsMismatch)

def equalValues (st : Store) : List Value → PureAction
  | [a, b] => .done (.ok (.bool (st.equal a b)))
  | _ => .done (.failed .argsMismatch)

def length (st : Store) : List Value → PureAction
  | [.str s] => .done (.ok (.int (Int64.ofNat s.length)))
  | [.arr r] => .done (.ok (.int (Int64.ofNat (st.arr r).size)))
  | [.hash r] => .done (.ok (.int (Int64.ofNat (st.hash r).length)))
  | [_] => .done (.failed .implMissing)
  | _ => .done (.failed .argsMismatch)

def pushValue : List Value → PureAction
  | [.arr r, v] => .edit (.pushItem r v) fun arr => .done (.ok arr)
  | [_, _] => .done (.failed .implMissing)
  | _ => .done (.failed .argsMismatch)

def throwValue : List Value → PureAction
  | [v] => .done (.exception v)
  | _ => .done (.failed .argsMismatch)

/-- Finish a call made on behalf of bytecode: a failure to choose an implementation becomes an
exception that names the callee. -/
def finishCall (callee : Value) (s : State) : MethodResult → Action
  | .failed why =>
    match callee with
    | .func f =>
      .edit (.newHash (s.machine.store.dispatchPairs why f)) fun v => .done (.exception v)
    | _ => .done (.failed why)
  | result => .done result

def callValue : List Value → Action
  | [] => .done (.failed .argsMismatch)
  | callee :: args =>
    .call callee args fun reply s =>
      match reply with
      | .ok result => finishCall callee s result
      | .error f => .fault f

def body : Builtin → NativeBody
  | .addInt => .pure fun _ => onInts fun a b => .int (a + b)
  | .sub => .pure fun _ => onInts fun a b => .int (a - b)
  | .mul => .pure fun _ => onInts fun a b => .int (a * b)
  | .less => .pure fun _ => onInts fun a b => .bool (a < b)
  | .greater => .pure fun _ => onInts fun a b => .bool (b < a)
  | .concatStr => .pure fun _ => concatStrs
  | .concatArr => .pure concatArrs
  | .equal => .pure equalValues
  | .len => .pure length
  | .push => .pure fun _ => pushValue
  | .throw => .pure fun _ => throwValue
  | .call => .contextual fun _ => callValue

/-- The built-in natives with their names, in the order of definition. -/
def table : List (String × Builtin) :=
  [("+", .addInt), ("+", .concatStr), ("+", .concatArr), ("-", .sub), ("*", .mul), ("<", .less),
    (">", .greater), ("==", .equal), ("len", .len), ("push", .push), ("throw", .throw),
    ("call", .call)]

end Builtin

def NativeCode.body (host : Host) : NativeCode → NativeBody
  | .builtin b => b.body
  | .host key => host key

end StackVM
