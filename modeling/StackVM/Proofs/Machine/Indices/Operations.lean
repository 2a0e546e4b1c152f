import Mathlib.Data.List.Nodup
import StackVM.Proofs.Machine.Ongoing.Decided
import StackVM.Proofs.Machine.Phase.Code

/-! # Operations on a table of globals

A table of globals is a list of distinct names with a value each. Whatever is done to it, the
indices in use are those below its size, an index has one name and a name one index, and a name
keeps its index.
-/
namespace StackVM

namespace Globals

/-- What can be asked of a table of globals. -/
inductive Op
  | check (name : String)
  | resolve (name : String)
  | define (name : String) (v : Value)
  | set (index : Nat) (v : Value)
  | get (index : Nat)
  | lookup (name : String)

/-- The table after an operation. -/
def apply (g : Globals) : Op → Globals
  | .resolve name => (g.resolve name).2
  | .define name v => (g.define name v).2
  | .set index v => g.set index v
  | .check _ | .get _ | .lookup _ => g

def applyAll (g : Globals) (ops : List Op) : Globals := ops.foldl apply g

namespace Op

/-- The name that gets a slot if it has none. -/
def name? : Op → Option String
  | .resolve name | .define name _ => some name
  | _ => none

/-- The slot that is stored into, with the value. -/
def target? (g : Globals) : Op → Option (Nat × Value)
  | .define name v => some ((g.resolve name).1, v)
  | .set index v => some (index, v)
  | _ => none

/-- The operation is about a name that is not present. -/
def Adds (op : Op) (g : Globals) : Prop := ∃ name, op.name? = some name ∧ g.check? name = none

/-- What an operation makes of a table. -/
structure Updates (op : Op) (g g' : Globals) : Prop where
  grows : op.Adds g → g'.size = g.size + 1
  stays : ¬ op.Adds g → g'.size = g.size
  kept : ∀ name index, g.check? name = some index → g'.check? name = some index
  named : ∀ name, op.name? = some name → g'.check? name = some (g.resolve name).1
  fresh : ∀ name, op.name? = some name → g.check? name = none → g'.check? name = some g.size
  stored : ∀ index v, op.target? g = some (index, v) → index < g'.size → g'.get? index = some v
  others : ∀ index, index < g'.size → (∀ v, op.target? g ≠ some (index, v)) →
    g'.get? index = some ((g.get? index).getD .undef)

end Op

/-- Names and indices belong to each other, and the indices in use are those below the size. -/
structure Indexed (g : Globals) : Prop where
  name?_iff : ∀ index name, g.name? index = some name ↔ g.check? name = some index
  used : ∀ index, (∃ name, g.name? index = some name) ↔ index < g.size

def names (g : Globals) : List String := g.slots.toList.map (·.1)

def values (g : Globals) : List Value := g.slots.toList.map (·.2)

variable {g : Globals} {name : String} {index : Nat}

theorem length_names (g : Globals) : g.names.length = g.size := by simp [names, size]

theorem length_values (g : Globals) : g.values.length = g.size := by simp [values, size]

theorem name?_eq (g : Globals) (index : Nat) : g.name? index = g.names[index]? := by
  simp [name?, names]

theorem get?_eq_values (g : Globals) (index : Nat) : g.get? index = g.values[index]? := by
  simp [get?, values]

theorem check?_eq_names (g : Globals) (name : String) :
    g.check? name = g.names.findIdx? (· == name) := by
  rw [check?_eq, names, List.findIdx?_map]
  rfl

theorem check?_eq_none : g.check? name = none ↔ name ∉ g.names := by
  rw [check?_eq_names, List.findIdx?_eq_none_iff]
  constructor
  · intro h hmem
    simpa using h name hmem
  · intro h x hx
    simp only [beq_eq_false_iff_ne]
    rintro rfl
    exact h hx

theorem check?_eq_some (hnodup : g.names.Nodup) :
    g.check? name = some index ↔ g.names[index]? = some name := by
  rw [check?_eq_names, List.findIdx?_eq_some_iff_getElem]
  constructor
  · rintro ⟨hlt, hfound, -⟩
    rw [List.getElem?_eq_getElem hlt]
    exact congrArg some (eq_of_beq hfound)
  · intro h
    obtain ⟨hlt, rfl⟩ := List.getElem?_eq_some_iff.mp h
    refine ⟨hlt, beq_self_eq_true _, fun j hj hfound => ?_⟩
    have hsame := (List.Nodup.getElem_inj_iff hnodup).mp (eq_of_beq hfound)
    exact Nat.ne_of_lt hj hsame

theorem indexed_of_nodup (hnodup : g.names.Nodup) : g.Indexed where
  name?_iff index name := by rw [name?_eq, check?_eq_some hnodup]
  used index := by
    simp only [name?_eq, List.getElem?_eq_some_iff, ← length_names]
    exact ⟨fun ⟨_, hlt, _⟩ => hlt, fun hlt => ⟨_, hlt, rfl⟩⟩

theorem names_set (g : Globals) (index : Nat) (v : Value) : (g.set index v).names = g.names := by
  apply List.ext_getElem?
  intro i
  simp only [names, toList_set, List.getElem?_map, List.getElem?_modify]
  by_cases hi : index = i <;> simp [hi, Function.comp_def]

theorem values_set (g : Globals) (index : Nat) (v : Value) :
    (g.set index v).values = g.values.set index v := by
  apply List.ext_getElem?
  intro i
  simp only [values, toList_set, List.getElem?_map, List.getElem?_modify, List.getElem?_set]
  by_cases hi : index = i
  · subst hi
    cases h : g.slots.toList[index]? with
    | none => simpa using h
    | some slot => simpa using (List.getElem?_eq_some_iff.mp h).1
  · simp [hi]

theorem names_resolve_of_absent (h : g.check? name = none) :
    (g.resolve name).2.names = g.names ++ [name] := by
  simp [resolve, h, names]

/-- A slot for a name, if there is one to name. -/
def reserve (g : Globals) : Option String → Globals
  | some name => (g.resolve name).2
  | none => g

/-- A value for a slot, if there is one to store. -/
def store (g : Globals) : Option (Nat × Value) → Globals
  | some (index, v) => g.set index v
  | none => g

theorem apply_eq (g : Globals) (op : Op) :
    g.apply op = (g.reserve op.name?).store (op.target? g) := by
  cases op <;> rfl

theorem names_store (g : Globals) (target : Option (Nat × Value)) :
    (g.store target).names = g.names := by
  cases target with
  | none => rfl
  | some target => exact g.names_set target.1 target.2

theorem size_store (g : Globals) (target : Option (Nat × Value)) :
    (g.store target).size = g.size := by
  rw [← length_names, names_store, length_names]

theorem check?_store (g : Globals) (target : Option (Nat × Value)) :
    (g.store target).check? = g.check? := by
  funext name
  rw [check?_eq_names, names_store, check?_eq_names]

theorem get?_store_self {v : Value} (h : index < g.size) :
    (g.store (some (index, v))).get? index = some v := by
  rw [store, get?_eq_values, values_set]
  exact List.getElem?_set_self (by rwa [length_values])

theorem get?_store_of_ne {target : Option (Nat × Value)} (h : ∀ v, target ≠ some (index, v)) :
    (g.store target).get? index = g.get? index := by
  cases target with
  | none => rfl
  | some target =>
    obtain ⟨i, v⟩ := target
    have hne : i ≠ index := by
      rintro rfl
      exact h v rfl
    rw [store, get?_eq_values, values_set, List.getElem?_set_ne hne, get?_eq_values]

theorem extends_reserve (g : Globals) (name : Option String) : g.Extends (g.reserve name) := by
  cases name with
  | none => exact .refl g
  | some name => exact g.extends_resolve name

theorem Extends.get?_eq_getD {g' : Globals} (h : g.Extends g') (hindex : index < g'.size) :
    g'.get? index = some ((g.get? index).getD .undef) := by
  by_cases hold : index < g.size
  · have hsome : index < g.values.length := by rwa [length_values]
    rw [h.get? hold, get?_eq_values, List.getElem?_eq_getElem hsome]
    rfl
  · obtain ⟨names, hnames⟩ := h
    have hlength := congrArg List.length hnames
    simp only [List.length_append, List.length_map, Array.length_toList] at hlength
    have hnew : index - g.slots.size < names.length := by
      unfold size at hindex hold
      omega
    have hnone : g.get? index = none := by
      rw [get?_eq_values]
      exact List.getElem?_eq_none (by rw [length_values]; omega)
    rw [hnone, get?_eq, hnames, List.getElem?_append_right (by simpa [size] using hold)]
    simp [hnew]

namespace Op

theorem size_reserve_of_adds {op : Op} (h : op.Adds g) :
    (g.reserve op.name?).size = g.size + 1 := by
  obtain ⟨name, hname, habsent⟩ := h
  rw [hname, reserve, ← length_names, names_resolve_of_absent habsent, List.length_append,
    length_names, List.length_singleton]

theorem reserve_of_not_adds {op : Op} (h : ¬ op.Adds g) : g.reserve op.name? = g := by
  cases hname : op.name? with
  | none => rfl
  | some name =>
    cases hcheck : g.check? name with
    | none => exact absurd ⟨name, hname, hcheck⟩ h
    | some index => rw [reserve, resolve_of_check? hcheck]

theorem updates (op : Op) (g : Globals) : op.Updates g (g.apply op) := by
  have hextends := g.extends_reserve op.name?
  rw [apply_eq]
  constructor
  · intro hadds
    rw [size_store, size_reserve_of_adds hadds]
  · intro hadds
    rw [size_store, reserve_of_not_adds hadds]
  · intro name index hcheck
    rw [check?_store]
    exact hextends.check? hcheck
  · intro name hname
    rw [check?_store, hname]
    exact g.check?_resolve name
  · intro name hname habsent
    rw [check?_store, hname]
    have hindex : (g.resolve name).1 = g.size := by simp [Globals.resolve, habsent, size]
    rw [← hindex]
    exact g.check?_resolve name
  · intro index v htarget hindex
    rw [size_store] at hindex
    rw [htarget]
    exact get?_store_self hindex
  · intro index hindex hother
    rw [size_store] at hindex
    rw [get?_store_of_ne hother]
    exact hextends.get?_eq_getD hindex

end Op

theorem nodup_names_apply (h : g.names.Nodup) (op : Op) : (g.apply op).names.Nodup := by
  rw [apply_eq, names_store]
  by_cases hadds : op.Adds g
  · obtain ⟨name, hname, habsent⟩ := hadds
    rw [hname, reserve, names_resolve_of_absent habsent]
    have hnew : name ∉ g.names := check?_eq_none.mp habsent
    exact h.append (List.nodup_singleton name) (List.disjoint_singleton.mpr hnew)
  · rw [Op.reserve_of_not_adds hadds]
    exact h

theorem nodup_names_applyAll (h : g.names.Nodup) (ops : List Op) :
    (g.applyAll ops).names.Nodup := by
  induction ops generalizing g with
  | nil => exact h
  | cons op ops ih => exact ih (nodup_names_apply h op)

theorem applyAll_append (g : Globals) (ops more : List Op) :
    g.applyAll (ops ++ more) = (g.applyAll ops).applyAll more :=
  List.foldl_append

/-- The table is the result of operations. -/
def Built (g : Globals) : Prop := ∃ ops, g = empty.applyAll ops

theorem Built.applyAll (h : g.Built) (more : List Op) : (g.applyAll more).Built := by
  obtain ⟨ops, rfl⟩ := h
  exact ⟨ops ++ more, (applyAll_append empty ops more).symm⟩

theorem Built.indexed (h : g.Built) : g.Indexed := by
  obtain ⟨ops, rfl⟩ := h
  have hempty : empty.names.Nodup := List.nodup_nil
  exact indexed_of_nodup (nodup_names_applyAll hempty ops)

/-- No operation takes away a name or moves it. -/
structure Keeps (g g' : Globals) : Prop where
  size_le : g.size ≤ g'.size
  check? : ∀ name index, g.check? name = some index → g'.check? name = some index

theorem Keeps.refl (g : Globals) : g.Keeps g := ⟨Nat.le_refl _, fun _ _ h => h⟩

theorem Keeps.trans {g' g'' : Globals} (h : g.Keeps g') (h' : g'.Keeps g'') : g.Keeps g'' :=
  ⟨Nat.le_trans h.size_le h'.size_le, fun name index hcheck =>
    h'.check? name index (h.check? name index hcheck)⟩

theorem keeps_apply (g : Globals) (op : Op) : g.Keeps (g.apply op) := by
  have hupdates := op.updates g
  refine ⟨?_, hupdates.kept⟩
  by_cases hadds : op.Adds g
  · have hgrows := hupdates.grows hadds
    omega
  · exact Nat.le_of_eq (hupdates.stays hadds).symm

theorem keeps_applyAll (g : Globals) (ops : List Op) : g.Keeps (g.applyAll ops) := by
  induction ops generalizing g with
  | nil => exact .refl g
  | cons op ops ih => exact (g.keeps_apply op).trans (ih (g.apply op))

end Globals

end StackVM
