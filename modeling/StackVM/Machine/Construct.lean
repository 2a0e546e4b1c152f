import StackVM.Machine.Flow

/-! # Building values

Instructions that make one value out of those on top of the stack, and the conversions to text and
to a truth value.
-/
namespace StackVM.Exec

def makeArr (pos count : Nat) : Exec Step := do
  let items ← popN pos count
  pushNew pos (·.newArr items.toArray)
  return .next

/-- Join texts. All of them are checked before any is taken. -/
def makeStr (pos count : Nat) : Exec Step := do
  let parts ← top pos count
  match parts.find? (·.str?.isNone) with
  | some found => fault pos (.typeMismatch .str found.tag?)
  | none =>
    discard count
    push pos (.str (String.join (parts.filterMap (·.str?))))
    return .next

/-- Insert keys and values that alternate in a list; the first unhashable key is given back. -/
def gatherEntries (entries : Entries) : List Value → Except Value Entries
  | k :: v :: rest =>
    match k.key? with
    | some key => gatherEntries (entries.insert key v) rest
    | none => .error k
  | _ => .ok entries

def makeHash (pos pairs : Nat) : Exec Step := do
  let flat ← popN pos (2 * pairs)
  match gatherEntries [] flat with
  | .ok entries =>
    pushNew pos (·.newHash entries)
    return .next
  | .error found => return .raise (← create (·.invalidKey found))

def paramType (pos : Nat) : Value → Exec Tag
  | .type t => return t
  | .null => return .any
  | found => fault pos (.typeMismatch .type found.tag?)

/-- Make a closure over the current frame. Its parameter types are on the stack. -/
def makeClosure (pos next : Nat) (e : EntryPoint) : Exec Step := do
  if e.slots < e.params then fault pos (.invalidClosure e.params e.slots)
  else
    let entry ← jumpTarget pos next e.offset
    let declared ← top pos e.params.toNat
    let paramTypes ← declared.mapM (paramType pos)
    discard e.params.toNat
    let scope :=
      match (← context).frames with
      | f :: _ => f.locals :: f.scope
      | [] => []
    pushNew pos fun st =>
      let (f, st) := st.newClosure ⟨entry, e.params, e.slots, paramTypes, scope⟩
      (.func f, st)
    return .next

def toStr (pos : Nat) : Exec Step := do
  let v ← pop pos
  push pos (.str ((← store).render v))
  return .next

def toBool (pos : Nat) : Exec Step := do
  let v ← pop pos
  push pos (.bool ((← store).isTruthy v))
  return .next

end StackVM.Exec
