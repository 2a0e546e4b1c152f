import StackVM.Proofs.Machine.Variables.Steps
import StackVM.Proofs.Value.References.Changes

/-! # Computations keep references alive

A machine is coherent if its store is and its globals refer to what the store has, a state if the
values on the stack do too. `Upholds s post x` says that `x`, started in `s`, comes to a coherent
state with everything that `s` had, whether it has a result or faults.
-/
namespace StackVM

structure Machine.Coherent (m : Machine) : Prop where
  store : m.store.Coherent m.program.size
  globals : ∀ slot ∈ m.globals.slots, slot.2.Live m.store

structure State.Coherent (s : State) : Prop where
  machine : s.machine.Coherent
  stack : ∀ v ∈ s.context.stack, v.Live s.machine.store

/-- A state that is coherent and has everything that the first one had. -/
structure State.Develops (s s' : State) : Prop where
  grows : s.machine.store.Grows s'.machine.store
  coherent : s'.Coherent

namespace Globals
variable {g : Globals} {index : Nat} {name : String} {v : Value} {slot : String × Value}

theorem mem_set (h : slot ∈ (g.set index v).slots) : slot ∈ g.slots ∨ slot.2 = v := by
  simp only [set] at h
  refine (mem_or_of_mem_modify h).imp_right ?_
  rintro ⟨_, -, rfl⟩
  rfl

theorem mem_resolve (h : slot ∈ (g.resolve name).2.slots) : slot ∈ g.slots ∨ slot.2 = .undef := by
  unfold resolve at h
  split at h
  · exact .inl h
  · refine (Array.mem_push.mp h).imp_right ?_
    rintro rfl
    rfl

theorem exists_slot_of_get? (h : g.get? index = some v) : ∃ slot ∈ g.slots, slot.2 = v := by
  obtain ⟨slot, hslot, hv⟩ := Option.map_eq_some_iff.mp h
  exact ⟨slot, Array.mem_of_getElem? hslot, hv⟩

end Globals

namespace Machine.Coherent
variable {m : Machine} {st : Store} {index : Nat} {v : Value}

theorem get?_live (h : m.Coherent) (hv : m.globals.get? index = some v) : v.Live m.store := by
  obtain ⟨slot, hslot, rfl⟩ := Globals.exists_slot_of_get? hv
  exact h.globals slot hslot

theorem put (h : m.Coherent) (hst : m.store.Develops m.program.size st) :
    Machine.Coherent { m with store := st } where
  store := hst.coherent
  globals slot hslot := (h.globals slot hslot).mono hst.grows

theorem set (h : m.Coherent) (hv : v.Live m.store) (index : Nat) :
    Machine.Coherent { m with globals := m.globals.set index v } where
  store := h.store
  globals slot hslot := by
    rcases Globals.mem_set hslot with hold | hnew
    · exact h.globals slot hold
    · exact hnew ▸ hv

theorem resolve (h : m.Coherent) (name : String) :
    Machine.Coherent { m with globals := (m.globals.resolve name).2 } where
  store := h.store
  globals slot hslot := by
    rcases Globals.mem_resolve hslot with hold | hnew
    · exact h.globals slot hold
    · rw [hnew]
      trivial

theorem define (h : m.Coherent) (hv : v.Live m.store) (name : String) :
    Machine.Coherent { m with globals := (m.globals.define name v).2 } :=
  (h.resolve name).set hv _

theorem defineNative (h : m.Coherent) (native : Native) :
    m.store.Grows (m.defineNative native).2.store ∧ (m.defineNative native).2.Coherent := by
  have hnew := h.store.newNative native
  have hf : (m.store.newNative native).1.Live (m.store.newNative native).2 := hnew.live
  have hcurrent : (((m.globals.resolve native.name).2.get?
      (m.globals.resolve native.name).1).getD .undef).Live (m.store.newNative native).2 := by
    cases hv : (m.globals.resolve native.name).2.get? (m.globals.resolve native.name).1 with
    | none => trivial
    | some v => exact ((h.resolve native.name).get?_live hv).mono hnew.grows
  have hmerged := hnew.coherent.defineOverload hcurrent hf native.name
  have hstore := hnew.toDevelops.trans hmerged.toDevelops
  exact ⟨hstore.grows, ((h.resolve native.name).put hstore).set hmerged.live _⟩

theorem withProgram (h : m.Coherent) {program : Program} (hsize : m.program.size ≤ program.size)
    (phase : Phase) : Machine.Coherent { m with program := program, phase := phase } where
  store := h.store.mono hsize
  globals := h.globals

end Machine.Coherent

namespace State
variable {s s' s'' : State} {st : Store} {c : Context}

theorem Develops.trans (h : s.Develops s') (h' : s'.Develops s'') : s.Develops s'' :=
  ⟨h.grows.trans h'.grows, h'.coherent⟩

namespace Coherent

theorem refl (h : s.Coherent) : s.Develops s := ⟨.refl _, h⟩

theorem withContext (h : s.Coherent) (hc : ∀ v ∈ c.stack, v.Live s.machine.store) :
    s.Develops { s with context := c } := ⟨.refl _, h.machine, hc⟩

theorem withMachine (h : s.Coherent) {m : Machine} (hgrows : s.machine.store.Grows m.store)
    (hm : m.Coherent) : s.Develops { s with machine := m } :=
  ⟨hgrows, hm, fun v hv => (h.stack v hv).mono hgrows⟩

theorem put (h : s.Coherent) (hst : s.machine.store.Develops s.machine.program.size st) :
    s.Develops { s with machine := { s.machine with store := st } } :=
  h.withMachine hst.grows (h.machine.put hst)

theorem drop (h : s.Coherent) (n : Nat) : ∀ v ∈ s.context.stack.drop n, v.Live s.machine.store :=
  fun v hv => h.stack v (List.mem_of_mem_drop hv)

end Coherent
end State

/-- What an instruction hands on exists. -/
def Exit.Live (st : Store) : Exit → Prop
  | .halted v | .returned v | .raised v => v.Live st

def Step.Live (step : Step) (s : State) : Prop :=
  match step with
  | .next | .jump _ => True
  | .raise v => v.Live s.machine.store
  | .exit e => e.Live s.machine.store
  | .invoke callee args =>
    callee.Live s.machine.store ∧ ∀ v ∈ args, v.Live s.machine.store

namespace Exec
variable {α β : Type} {s s' : State} {x : Exec α} {f : α → Exec β} {pos next n : Nat} {base : Base}

def Upholds (s : State) (post : α → State → Prop) (x : Exec α) : Prop :=
  match x s with
  | .ok a s' => s.Develops s' ∧ post a s'
  | .error _ s' => s.Develops s'

section Rules
variable {post : β → State → Prop} {mid : α → State → Prop}

theorem Upholds.pure {b : β} (hs : s.Coherent) (h : post b s) : Upholds s post (Pure.pure b) :=
  ⟨hs.refl, h⟩

theorem Upholds.fault {cause : Cause} (hs : s.Coherent) :
    Upholds s post (Exec.fault pos cause) := hs.refl

theorem Upholds.ite {c : Prop} [Decidable c] {y z : Exec β} (hy : c → Upholds s post y)
    (hz : ¬ c → Upholds s post z) : Upholds s post (if c then y else z) := by
  by_cases hc : c
  · rw [if_pos hc]
    exact hy hc
  · rw [if_neg hc]
    exact hz hc

theorem Upholds.read (hs : s.Coherent) (hx : Reads x)
    (hf : ∀ a, x s = .ok a s → Upholds s post (f a)) : Upholds s post (x >>= f) := by
  unfold Upholds
  rw [bind_apply]
  rcases hx s with ⟨a, ha⟩ | ⟨e, he⟩
  · rw [ha]
    exact hf a ha
  · rw [he]
    exact hs.refl

theorem Upholds.bind (hx : Upholds s mid x)
    (hf : ∀ a s', s.Develops s' → mid a s' → Upholds s' post (f a)) :
    Upholds s post (x >>= f) := by
  unfold Upholds at hx ⊢
  rw [bind_apply]
  cases hres : x s with
  | error e t =>
    rw [hres] at hx
    exact hx
  | ok a t =>
    rw [hres] at hx
    obtain ⟨hdevelops, hmid⟩ := hx
    have hrest := hf a t hdevelops hmid
    dsimp only
    unfold Upholds at hrest
    cases hout : f a t with
    | error e u =>
      rw [hout] at hrest
      exact hdevelops.trans hrest
    | ok b u =>
      rw [hout] at hrest
      exact ⟨hdevelops.trans hrest.1, hrest.2⟩

theorem Upholds.ok {b : β} {y : Exec β} (h : Upholds s post y) (hy : y s = .ok b s') :
    s.Develops s' ∧ post b s' := by
  unfold Upholds at h
  rw [hy] at h
  exact h

theorem Upholds.error {e : Fault} {y : Exec β} (h : Upholds s post y) (hy : y s = .error e s') :
    s.Develops s' := by
  unfold Upholds at h
  rw [hy] at h
  exact h

end Rules

theorem push_upholds (hs : s.Coherent) {v : Value} (hv : v.Live s.machine.store) :
    Upholds s (fun _ _ => True) (push pos v) := by
  unfold Upholds push
  split
  next _ _ h =>
    split at h <;> cases h
    exact ⟨hs.withContext (List.forall_mem_cons.mpr ⟨hv, hs.stack⟩), trivial⟩
  next _ _ h =>
    split at h <;> cases h
    exact hs.refl

theorem create_upholds (hs : s.Coherent) {make : Store → Value × Store}
    (hmake : s.machine.store.Yields s.machine.program.size (make s.machine.store)) :
    Upholds s (fun v s' => v.Live s'.machine.store) (create make) :=
  ⟨hs.put hmake.toDevelops, hmake.live⟩

theorem pushNew_upholds (hs : s.Coherent) {make : Store → Value × Store}
    (hmake : s.machine.store.Yields s.machine.program.size (make s.machine.store)) :
    Upholds s (fun _ _ => True) (pushNew pos make) := by
  have hput := hs.put hmake.toDevelops
  unfold Upholds pushNew
  split
  next _ _ h =>
    split at h <;> cases h
    refine ⟨⟨hput.grows, hput.coherent.machine, ?_⟩, trivial⟩
    exact List.forall_mem_cons.mpr ⟨hmake.live, hput.coherent.stack⟩
  next _ _ h =>
    split at h <;> cases h
    exact hs.refl

theorem pop_upholds (hs : s.Coherent) :
    Upholds s (fun v s' => v.Live s'.machine.store) (pop pos) := by
  unfold Upholds pop
  cases hstack : s.context.stack with
  | nil => exact hs.refl
  | cons v rest =>
    have hlive := hs.stack
    rw [hstack] at hlive
    obtain ⟨hv, hrest⟩ := List.forall_mem_cons.mp hlive
    exact ⟨hs.withContext hrest, hv⟩

theorem discard_upholds (hs : s.Coherent) (n : Nat) :
    Upholds s (fun _ s' => s'.machine = s.machine) (discard n) :=
  ⟨hs.withContext (hs.drop n), rfl⟩

theorem live_of_peek (hs : s.Coherent) {v : Value} (h : peek pos s = .ok v s') :
    v.Live s.machine.store := by
  unfold peek at h
  split at h
  next v' rest hstack =>
    cases h
    exact hs.stack v (by simp [hstack])
  next => cases h

theorem live_of_top (hs : s.Coherent) {values : List Value} (h : top pos n s = .ok values s') :
    ∀ v ∈ values, v.Live s.machine.store := by
  unfold top at h
  split at h <;> cases h
  exact fun v hv => hs.stack v (List.mem_of_mem_take (List.mem_reverse.mp hv))

theorem popN_upholds (hs : s.Coherent) :
    Upholds s (fun values s' => ∀ v ∈ values, v.Live s'.machine.store) (popN pos n) := by
  refine .read hs (reads_top n) fun values hvalues => ?_
  refine (discard_upholds hs n).bind fun _ s' hdevelops _ => .pure hdevelops.coherent ?_
  exact fun v hv => (live_of_top hs hvalues v hv).mono hdevelops.grows

theorem setGlobal_upholds (hs : s.Coherent) {v : Value} (hv : v.Live s.machine.store)
    (index : Nat) : Upholds s (fun _ _ => True) (setGlobal index v) :=
  ⟨hs.withMachine (.refl _) (hs.machine.set hv index), trivial⟩

theorem resolveName_upholds (hs : s.Coherent) (name : String) :
    Upholds s (fun _ _ => True) (resolveName name) :=
  ⟨hs.withMachine (.refl _) (hs.machine.resolve name), trivial⟩

theorem setSlot_upholds (hs : s.Coherent) {v : Value} (hv : v.Live s.machine.store)
    (r : LocalsRef) (slot : UInt8) : Upholds s (fun _ _ => True) (setSlot r slot v) :=
  ⟨hs.put (hs.machine.store.setSlot hv r slot.toNat), trivial⟩

theorem pushHandler_upholds (hs : s.Coherent) (h : Handler) :
    Upholds s (fun _ _ => True) (pushHandler pos h) := by
  unfold Upholds pushHandler
  split
  next _ _ hok =>
    split at hok <;> cases hok
    exact ⟨hs.withContext hs.stack, trivial⟩
  next _ _ herror =>
    split at herror <;> cases herror
    exact hs.refl

theorem modifyContext_upholds (hs : s.Coherent) {g : Context → Context}
    (hg : ∀ v ∈ (g s.context).stack, v ∈ s.context.stack) :
    Upholds s (fun _ _ => True) (modifyContext g) :=
  ⟨hs.withContext fun v hv => hs.stack v (hg v hv), trivial⟩

theorem live_of_mem_initialLocals {st : Store} {args : List Value} {slots : UInt8}
    (hargs : ∀ v ∈ args, v.Live st) : ∀ v ∈ initialLocals args slots, v.Live st := by
  intro v hv
  rcases List.mem_append.mp (List.mem_of_mem_take (List.mem_toArray.mp hv)) with hv | hv
  · exact hargs v hv
  · rw [List.eq_of_mem_replicate hv]
    trivial

theorem pushFrame_upholds (hs : s.Coherent) (c : Closure) {args : List Value}
    (hargs : ∀ v ∈ args, v.Live s.machine.store) (returnIp savedSp : Nat) :
    Upholds s (fun _ _ => True) (pushFrame pos c args returnIp savedSp) := by
  refine .read hs reads_requireFrame fun _ _ => ?_
  have hslots : ∀ v ∈ initialLocals args c.slots, v.Live s.machine.store :=
    live_of_mem_initialLocals hargs
  have hcreate : Upholds s (fun _ _ => True) (create (·.newLocals (initialLocals args c.slots))) :=
    ⟨hs.put (hs.machine.store.newLocals hslots), trivial⟩
  exact hcreate.bind fun _ s' hdevelops _ => modifyContext_upholds hdevelops.coherent fun _ => id

end Exec
end StackVM
