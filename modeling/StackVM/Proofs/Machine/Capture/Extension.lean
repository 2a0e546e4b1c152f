import StackVM.Proofs.Machine.Bounded
import StackVM.Proofs.Machine.Phase.Code
import StackVM.Proofs.Machine.Variables.Steps

/-! # Stores that grow

Along a life of a machine the store only grows: it keeps the closures and the lengths of local
variables. Every reference to local variables in a frame or a closure is to ones that exist, and
stays so.
-/
namespace StackVM

/-- The second store has everything of the first one, with the same closures and the same numbers of
local variables. -/
structure Store.Extends (st st' : Store) : Prop where
  size : st.locals.size ≤ st'.locals.size
  lengths : ∀ r : LocalsRef, r.id < st.locals.size → (st'.slots r).size = (st.slots r).size
  closureCount : st.closures.size ≤ st'.closures.size
  closures : ∀ r : ClosureRef, r.id < st.closures.size → st'.closure r = st.closure r

namespace Store.Extends
variable {st st' st'' : Store}

theorem refl (st : Store) : st.Extends st :=
  ⟨Nat.le_refl _, fun _ _ => rfl, Nat.le_refl _, fun _ _ => rfl⟩

theorem trans (h : st.Extends st') (h' : st'.Extends st'') : st.Extends st'' where
  size := Nat.le_trans h.size h'.size
  lengths r hr := (h'.lengths r (Nat.lt_of_lt_of_le hr h.size)).trans (h.lengths r hr)
  closureCount := Nat.le_trans h.closureCount h'.closureCount
  closures r hr := (h'.closures r (Nat.lt_of_lt_of_le hr h.closureCount)).trans (h.closures r hr)

theorem of_sameScopes (h : st.SameScopes st') : st.Extends st' where
  size := Nat.le_of_eq (congrArg Array.size h.locals.symm)
  lengths r _ := by simp only [Store.slots, h.locals]
  closureCount := Nat.le_of_eq (congrArg Array.size h.closures.symm)
  closures r _ := by simp only [Store.closure, h.closures]

end Store.Extends

namespace State
variable {s s' : State}

theorem Assigned.extends {k : Cell} {v : Value} (h : s.Assigned k v s') :
    s.machine.store.Extends s'.machine.store where
  size := by simp [h.locals, Store.setSlot]
  lengths r _ := by
    have hslots : s'.machine.store.slots r =
        (s.machine.store.setSlot k.scope k.slot v).slots r := by
      simp only [Store.slots, h.locals]
    rw [hslots, Store.size_slots_setSlot]
  closureCount := by simp [h.closures]
  closures r _ := by simp only [Store.closure, h.closures]

theorem Captured.extends (h : s.Captured s') : s.machine.store.Extends s'.machine.store := by
  obtain ⟨c, -, hclosures⟩ := h.closures
  constructor
  · simp [h.locals]
  · intro r _
    simp only [Store.slots, h.locals]
  · simp [hclosures]
  · intro r hr
    simp [Store.closure, hclosures, Array.getElem?_push_lt, hr]

theorem Entered.extends {r : ClosureRef} {g : Frame} (h : s.Entered r g s') :
    s.machine.store.Extends s'.machine.store := by
  obtain ⟨slots, hlocals⟩ := h.locals
  constructor
  · simp [hlocals]
  · intro r hr
    simp [Store.slots, hlocals, Array.getElem?_push_lt, hr]
  · simp [h.closures]
  · intro r _
    simp only [Store.closure, h.closures]

end State

theorem Config.Varies.extends {c d : Config} (h : c.Varies d) :
    c.state.machine.store.Extends d.state.machine.store := by
  cases h with
  | keep hkeeps => exact .of_sameScopes hkeeps.store
  | assign _ _ _ _ hassigned => exact hassigned.extends
  | capture _ hcaptured => exact hcaptured.extends
  | enter _ hentered => exact hentered.extends

/-- Closures refer to local variables that exist. -/
def Store.Scoped (st : Store) : Prop :=
  ∀ c ∈ st.closures, ∀ r ∈ c.scope, r.id < st.locals.size

/-- Frames refer to local variables that exist, and each has its own. -/
structure Context.Scoped (st : Store) (c : Context) : Prop where
  known : ∀ f ∈ c.frames, ∀ r ∈ f.locals :: f.scope, r.id < st.locals.size
  distinct : (c.frames.map Frame.locals).Nodup

namespace Context.Scoped
variable {st st' : Store} {c c' : Context}

theorem new (st : Store) : Context.new.Scoped st := ⟨by simp [Context.new], List.nodup_nil⟩

theorem mono (h : c.Scoped st) (hst : st.Extends st') (hframes : c'.frames <:+ c.frames) :
    c'.Scoped st' where
  known f hf r hr := Nat.lt_of_lt_of_le (h.known f (hframes.mem hf) r hr) hst.size
  distinct := (hframes.sublist.map _).nodup h.distinct

theorem scope (h : c.Scoped st) : ∀ r ∈ c.scope, r.id < st.locals.size := by
  unfold Context.scope
  cases hframes : c.frames with
  | nil => simp
  | cons f fs => exact h.known f (by simp [hframes])

end Context.Scoped

theorem Store.Scoped.of_sameScopes {st st' : Store} (h : st.Scoped) (hst : st.SameScopes st') :
    st'.Scoped := by
  unfold Store.Scoped
  rw [hst.closures, hst.locals]
  exact h

/-- A dangling reference reads as a closure without scopes. -/
theorem Store.Scoped.closure {st : Store} (h : st.Scoped) (r : ClosureRef) :
    ∀ x ∈ (st.closure r).scope, x.id < st.locals.size := by
  unfold Store.closure
  cases hr : st.closures[r.id]? with
  | none => exact fun x hx => nomatch (show x ∈ [] from hx)
  | some c => exact h c (Array.mem_of_getElem? hr)

namespace State
variable {s s' : State}

theorem Assigned.scoped {k : Cell} {v : Value} (h : s.Assigned k v s')
    (hs : s.machine.store.Scoped) : s'.machine.store.Scoped := by
  unfold Store.Scoped
  rw [h.closures]
  exact fun c hc r hr => Nat.lt_of_lt_of_le (hs c hc r hr) h.extends.size

theorem Captured.scoped (h : s.Captured s') (hs : s.machine.store.Scoped)
    (hctx : s.context.Scoped s.machine.store) : s'.machine.store.Scoped := by
  obtain ⟨made, hscope, hclosures⟩ := h.closures
  unfold Store.Scoped
  rw [hclosures, h.locals]
  intro c hc
  rcases Array.mem_push.mp hc with hold | rfl
  · exact hs c hold
  · rw [hscope]
    exact hctx.scope

theorem Entered.scoped {r : ClosureRef} {g : Frame} (h : s.Entered r g s')
    (hs : s.machine.store.Scoped) : s'.machine.store.Scoped := by
  unfold Store.Scoped
  rw [h.closures]
  exact fun c hc r hr => Nat.lt_of_lt_of_le (hs c hc r hr) h.extends.size

theorem Entered.context {r : ClosureRef} {g : Frame} (h : s.Entered r g s')
    (hs : s.machine.store.Scoped) (hctx : s.context.Scoped s.machine.store) :
    s'.context.Scoped s'.machine.store := by
  obtain ⟨slots, hlocals⟩ := h.locals
  have hsize : s'.machine.store.locals.size = s.machine.store.locals.size + 1 := by simp [hlocals]
  constructor
  · intro f hf x hx
    rw [hsize]
    rw [h.frames] at hf
    rcases List.mem_cons.mp hf with rfl | hold
    · rcases List.mem_cons.mp hx with rfl | hup
      · rw [h.fresh]
        exact Nat.lt_succ_self _
      · rw [h.scope] at hup
        exact Nat.lt_succ_of_lt (hs.closure r x hup)
    · exact Nat.lt_succ_of_lt (hctx.known f hold x hx)
  · rw [h.frames, List.map_cons]
    refine List.nodup_cons.mpr ⟨?_, hctx.distinct⟩
    intro hmem
    obtain ⟨f, hf, hsame⟩ := List.mem_map.mp hmem
    have hlt := hctx.known f hf f.locals List.mem_cons_self
    rw [hsame, h.fresh] at hlt
    exact Nat.lt_irrefl _ hlt

end State

theorem Config.Varies.scoped {c d : Config} (h : c.Varies d) (hs : c.state.machine.store.Scoped)
    (hctx : c.state.context.Scoped c.state.machine.store) :
    d.state.machine.store.Scoped ∧ d.state.context.Scoped d.state.machine.store := by
  cases h with
  | keep hkeeps =>
    exact ⟨hs.of_sameScopes hkeeps.store, hctx.mono (.of_sameScopes hkeeps.store) hkeeps.frames⟩
  | assign _ _ _ _ hassigned =>
    exact ⟨hassigned.scoped hs, hctx.mono hassigned.extends (hassigned.frames ▸ List.suffix_rfl)⟩
  | capture _ hcaptured =>
    exact ⟨hcaptured.scoped hs hctx,
      hctx.mono hcaptured.extends (hcaptured.frames ▸ List.suffix_rfl)⟩
  | enter _ hentered => exact ⟨hentered.scoped hs, hentered.context hs hctx⟩

end StackVM
