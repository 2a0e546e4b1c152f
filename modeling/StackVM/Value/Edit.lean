import StackVM.Value.Store

/-! # Edits of a store

What a native may do to shared objects: create arrays and hashes, extend those it knows, and give
them other contents altogether. An edit gives the object it created or changed.
-/
namespace StackVM

inductive Edit
  | newArr (items : Array Value)
  | newHash (pairs : List (Key × Value))
  | pushItem (ref : ArrRef) (v : Value)
  | putEntry (ref : HashRef) (k : Key) (v : Value)
  | setItems (ref : ArrRef) (items : Array Value)
  | setEntries (ref : HashRef) (pairs : List (Key × Value))
  deriving DecidableEq

def Store.apply (st : Store) : Edit → Value × Store
  | .newArr items => st.newArr items
  | .newHash pairs => st.newHash (.ofPairs pairs)
  | .pushItem r v => (.arr r, st.pushItem r v)
  | .putEntry r k v => (.hash r, st.putEntry r k v)
  | .setItems r items => (.arr r, st.setItems r items)
  | .setEntries r pairs => (.hash r, st.setEntries r (.ofPairs pairs))

end StackVM
