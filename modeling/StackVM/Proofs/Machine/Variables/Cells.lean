import StackVM.Proofs.Machine.Scopes

/-! # Variables and their cells

Code of a frame addresses its own variables by slot and captured ones by scope and slot. The cell
that an address leads to is given by the frame, and its content by the store.
-/
namespace StackVM

/-- How the code of a frame refers to a variable. -/
inductive Address
  | own (slot : UInt8)
  | captured (var : Upvar)
  deriving DecidableEq

def Address.slot : Address → UInt8
  | .own slot => slot
  | .captured var => var.slot

/-- A place for one value in the local variables of a call. -/
structure Cell where
  scope : LocalsRef
  slot : Nat
  deriving DecidableEq

def Store.content? (st : Store) (k : Cell) : Option Value := (st.slots k.scope)[k.slot]?

namespace Frame

/-- The local variables that an address is about. -/
def home? (f : Frame) : Address → Option LocalsRef
  | .own _ => some f.locals
  | .captured var => f.scope[var.depth.toNat]?

/-- The cell that an address of this frame leads to; none if it is out of range. -/
def cell? (st : Store) (f : Frame) (a : Address) : Option Cell :=
  ((f.home? a).map fun r => ⟨r, a.slot.toNat⟩).filter fun k => (st.content? k).isSome

/-- What this frame sees at an address. -/
def read? (st : Store) (f : Frame) (a : Address) : Option Value :=
  (f.cell? st a).bind st.content?

end Frame

/-- The scopes of a closure that is made in this context, innermost first. -/
def Context.scope (c : Context) : List LocalsRef :=
  match c.frames with
  | f :: _ => f.locals :: f.scope
  | [] => []

namespace Instr

/-- The address that an instruction stores a value at. -/
def stores? : Instr → Option Address
  | ⟨.storeLocal, slot⟩ => some (.own slot)
  | ⟨.storeUpvar, var⟩ => some (.captured var)
  | _ => none

/-- The address where an instruction adds an overload. -/
def defines? : Instr → Option Address
  | ⟨.defLocalFun, slot⟩ => some (.own slot)
  | ⟨.defUpvarFun, var⟩ => some (.captured var)
  | _ => none

/-- The address that an instruction assigns to. -/
def assigns? (i : Instr) : Option Address := i.stores?.or i.defines?

end Instr

section Cells
variable {st st' : Store} {f : Frame} {a : Address} {k k' : Cell} {v : Value}

theorem Frame.cell?_eq_some_iff :
    f.cell? st a = some k ↔
      f.home? a = some k.scope ∧ k.slot = a.slot.toNat ∧ (st.content? k).isSome = true := by
  unfold Frame.cell?
  rw [Option.filter_eq_some_iff, Option.map_eq_some_iff]
  constructor
  · rintro ⟨⟨r, hr, rfl⟩, hcontent⟩
    exact ⟨hr, rfl, hcontent⟩
  · rintro ⟨hr, hslot, hcontent⟩
    obtain ⟨r, slot⟩ := k
    cases hslot
    exact ⟨⟨r, hr, rfl⟩, hcontent⟩

theorem Store.content?_congr (h : st'.locals = st.locals) (k : Cell) :
    st'.content? k = st.content? k := by
  simp only [Store.content?, Store.slots, h]

theorem Store.slots_setSlot (st : Store) (r r' : LocalsRef) (slot : Nat) (v : Value) :
    (st.setSlot r slot v).slots r' =
      if r' = r then (st.slots r).setIfInBounds slot v else st.slots r' := by
  obtain ⟨n⟩ := r
  obtain ⟨n'⟩ := r'
  simp only [Store.setSlot, Store.slots, Array.getElem?_modify, LocalsRef.mk.injEq]
  by_cases hn : n = n'
  · subst hn
    cases st.locals[n]? <;> simp
  · simp [hn, Ne.symm hn]

theorem Store.size_slots_setSlot (st : Store) (r r' : LocalsRef) (slot : Nat) (v : Value) :
    ((st.setSlot r slot v).slots r').size = (st.slots r').size := by
  rw [st.slots_setSlot]
  split
  next h => rw [h, Array.size_setIfInBounds]
  next => rfl

theorem Store.content?_setSlot (h : (st.content? k).isSome = true) (k' : Cell) (v : Value) :
    (st.setSlot k.scope k.slot v).content? k' = if k' = k then some v else st.content? k' := by
  obtain ⟨r, n⟩ := k
  obtain ⟨r', n'⟩ := k'
  have hbound : n < (st.slots r).size := by simpa [Store.content?] using h
  simp only [Store.content?, Store.slots_setSlot, Cell.mk.injEq]
  by_cases hr : r' = r
  · subst hr
    simp only [if_true, true_and, Array.getElem?_setIfInBounds]
    by_cases hn : n = n'
    · subst hn
      simp [hbound]
    · simp [hn, Ne.symm hn]
  · simp [hr]

end Cells

/-- A value went into a cell, and nothing else was bound. -/
structure State.Assigned (s : State) (k : Cell) (v : Value) (s' : State) : Prop where
  frames : s'.context.frames = s.context.frames
  locals : s'.machine.store.locals = (s.machine.store.setSlot k.scope k.slot v).locals
  closures : s'.machine.store.closures = s.machine.store.closures

/-- A closure over the current frame was made and is on top of the stack. -/
structure State.Captured (s s' : State) : Prop where
  frames : s'.context.frames = s.context.frames
  locals : s'.machine.store.locals = s.machine.store.locals
  closures : ∃ c : Closure, c.scope = s.context.scope ∧
    s'.machine.store.closures = s.machine.store.closures.push c
  top : s'.context.stack.head? = some (.func (.closure ⟨s.machine.store.closures.size⟩))

/-- A frame was made for a closure, with local variables of its own. -/
structure State.Entered (s : State) (r : ClosureRef) (g : Frame) (s' : State) : Prop where
  frames : s'.context.frames = g :: s.context.frames
  scope : g.scope = (s.machine.store.closure r).scope
  fresh : g.locals = ⟨s.machine.store.locals.size⟩
  locals : ∃ slots, s'.machine.store.locals = s.machine.store.locals.push slots
  closures : s'.machine.store.closures = s.machine.store.closures

end StackVM
