import StackVM.Proofs.Machine.Capture.Lexical
import StackVM.Proofs.Machine.Coherence.Instructions

/-! # Natives that make up no references

A host may write any value into the tree of what a native asks for. A native is honest if it hands
over references to objects that exist only, given arguments that exist, and after a call also in
what the call left. The built-in natives are honest.
-/
namespace StackVM

def MethodResult.Live (st : Store) : MethodResult → Prop
  | .ok v | .exception v => v.Live st
  | .failed _ => True

def Edit.Live (st : Store) : Edit → Prop
  | .newArr items => ∀ v ∈ items, v.Live st
  | .newHash pairs => ∀ p ∈ pairs, p.2.Live st
  | .pushItem r v => (Value.arr r).Live st ∧ v.Live st
  | .putEntry r _ v => (Value.hash r).Live st ∧ v.Live st
  | .setItems r items => (Value.arr r).Live st ∧ ∀ v ∈ items, v.Live st
  | .setEntries r pairs => (Value.hash r).Live st ∧ ∀ p ∈ pairs, p.2.Live st

/-- What the native hands over refers to objects of the store. -/
def PureAction.Honest : PureAction → Store → Prop
  | .done result, st => result.Live st
  | .edit e resume, st => e.Live st ∧ (resume (st.apply e).1).Honest (st.apply e).2

/-- What the native hands over refers to objects of the state. After a call it has to be honest in
every coherent state that has at least these objects, whatever the reply is. -/
def Action.Honest : Action → State → Prop
  | .done result, s => result.Live s.machine.store
  | .fault _, _ => True
  | .edit e resume, s =>
    e.Live s.machine.store ∧
      (resume (s.withStore (·.apply e)).1).Honest (s.withStore (·.apply e)).2
  | .call callee args resume, s =>
    callee.Live s.machine.store ∧ (∀ v ∈ args, v.Live s.machine.store) ∧
      ∀ reply t, s.Develops t → (∀ result, reply = .ok result → result.Live t.machine.store) →
        (resume reply t).Honest t
  | .define native resume, s =>
    (resume (s.machine.defineNative native).1).Honest
      { s with machine := (s.machine.defineNative native).2 }
  | .reset resume, s => resume.Honest { s with context := .new }

/-- The native is honest after a call that it makes when the store is this one. -/
def Resume.Honest (resume : Resume) (st : Store) : Prop :=
  ∀ reply s, s.Coherent → st.Grows s.machine.store →
    (∀ result, reply = .ok result → result.Live s.machine.store) → (resume reply s).Honest s

def NativeBody.Honest : NativeBody → Prop
  | .pure run =>
    ∀ size st args, st.Coherent size → (∀ v ∈ args, v.Live st) → (run st args).Honest st
  | .contextual run =>
    ∀ s args, s.Coherent → (∀ v ∈ args, v.Live s.machine.store) → (run s args).Honest s

def Host.Honest (host : Host) : Prop := ∀ key, (host key).Honest

theorem Host.none_honest : Host.none.Honest := fun _ _ _ _ _ _ => trivial

section Natives
variable {size : Nat} {st : Store} {s : State} {args : List Value}

theorem Edit.Live.apply {e : Edit} (he : e.Live st) (h : st.Coherent size) :
    st.Yields size (st.apply e) := by
  cases e with
  | newArr items => exact h.newArr he
  | newHash pairs => exact h.newHash fun p hp => he p (Entries.mem_ofPairs hp)
  | pushItem r v =>
    have hpushed := h.pushItem he.2 r
    exact ⟨hpushed, he.1.mono hpushed.grows⟩
  | putEntry r k v =>
    have hput := h.putEntry he.2 r k
    exact ⟨hput, he.1.mono hput.grows⟩
  | setItems r items =>
    have hset := h.setItems he.2 r
    exact ⟨hset, he.1.mono hset.grows⟩
  | setEntries r pairs =>
    have hset := h.setEntries (fun p hp => he.2 p (Entries.mem_ofPairs hp)) r
    exact ⟨hset, he.1.mono hset.grows⟩

theorem PureAction.Honest.perform {a : PureAction} (ha : a.Honest st) (h : st.Coherent size) :
    st.Develops size (a.perform st).2 ∧ (a.perform st).1.Live (a.perform st).2 := by
  induction a generalizing st with
  | done result => exact ⟨h.refl, ha⟩
  | edit e resume ih =>
    have hedit := ha.1.apply h
    obtain ⟨hdevelops, hlive⟩ := ih _ ha.2 hedit.coherent
    exact ⟨hedit.toDevelops.trans hdevelops, hlive⟩

namespace Builtin

theorem onInts_honest {op : Int64 → Int64 → Value} (hop : ∀ a b, (op a b).Live st)
    (args : List Value) : (onInts op args).Honest st := by
  unfold onInts
  split
  · exact hop _ _
  · trivial
  · trivial

theorem callValue_honest (hargs : ∀ v ∈ args, v.Live s.machine.store) :
    (callValue args).Honest s := by
  cases args with
  | nil => trivial
  | cons callee args =>
    obtain ⟨hcallee, hargs⟩ := List.forall_mem_cons.mp hargs
    refine ⟨hcallee, hargs, fun reply t ht hreply => ?_⟩
    cases reply with
    | error f => trivial
    | ok result =>
      have hresult := hreply result rfl
      cases result with
      | ok v => exact hresult
      | exception v => exact hresult
      | failed why =>
        cases callee with
        | func f =>
          have herror := ht.coherent.machine.store.newError why.kind "callee"
            (t.machine.store.functionName f)
          refine ⟨fun p hp => ?_, herror.live⟩
          rcases List.mem_cons.mp hp with rfl | hp
          · trivial
          · rw [List.mem_singleton.mp hp]
            trivial
        | _ => trivial

theorem body_honest (b : Builtin) : b.body.Honest := by
  cases b with
  | addInt | sub | mul | less | greater =>
    intro size st args h hargs
    apply onInts_honest
    exact fun _ _ => trivial
  | call => exact fun s args hs hargs => callValue_honest hargs
  | concatStr | equal | len =>
    intro size st args h hargs
    simp only [concatStrs, equalValues, length]
    split <;> trivial
  | concatArr =>
    intro size st args h hargs
    simp only [concatArrs]
    split
    next a b =>
      have hitems : ∀ v ∈ st.arr a ++ st.arr b, v.Live st := by
        intro v hv
        exact (Array.mem_append.mp hv).elim (h.arr_live a v) (h.arr_live b v)
      exact ⟨hitems, (h.newArr hitems).live⟩
    next => trivial
    next => trivial
  | push =>
    intro size st args h hargs
    simp only [pushValue]
    split
    next r v =>
      obtain ⟨hr, hv⟩ := List.forall_mem_cons.mp hargs
      have hv := hv v List.mem_cons_self
      exact ⟨⟨hr, hv⟩, hr.mono (h.pushItem hv r).grows⟩
    next => trivial
    next => trivial
  | throw =>
    intro size st args h hargs
    simp only [throwValue]
    split
    next v => exact hargs v List.mem_cons_self
    next => trivial

end Builtin

theorem NativeCode.body_honest {host : Host} (hhost : host.Honest) (code : NativeCode) :
    (code.body host).Honest := by
  cases code with
  | builtin b => exact b.body_honest
  | host key => exact hhost key

end Natives

end StackVM
