import StackVM.Machine.Globals

/-! # Names only grow

Resolving a name leaves every other name at its index and gives a new one the next index, with
nothing stored in it. `Extends` says what any number of resolutions can do, so what it keeps is
proved once.
-/
namespace StackVM.Globals

/-- The second table has all slots of the first one, and after them undefined ones of more names. -/
def Extends (g g' : Globals) : Prop :=
  ∃ names : List String, g'.slots.toList = g.slots.toList ++ names.map fun name => (name, .undef)

variable {g g' g'' : Globals} {name other : String} {index : Nat}

theorem check?_eq (g : Globals) (name : String) :
    g.check? name = g.slots.toList.findIdx? (·.1 == name) := by
  obtain ⟨⟨slots⟩⟩ := g
  simp [check?]

theorem get?_eq (g : Globals) (index : Nat) :
    g.get? index = (g.slots.toList[index]?).map (·.2) := by
  simp [get?]

theorem lt_size_of_check? (h : g.check? name = some index) : index < g.size := by
  rw [check?_eq] at h
  have hlt := (List.findIdx?_eq_some_iff_getElem.mp h).1
  simpa [size] using hlt

theorem toList_set (g : Globals) (index : Nat) (v : Value) :
    (g.set index v).slots.toList = g.slots.toList.modify index fun slot => (slot.1, v) := by
  simp [set]

theorem set_of_size_le (h : g.size ≤ index) (v : Value) : g.set index v = g := by
  have hlength : g.slots.toList.length ≤ index := by simpa [size] using h
  have hlist : (g.set index v).slots.toList = g.slots.toList := by
    rw [toList_set]
    exact List.modify_eq_self hlength
  obtain ⟨slots⟩ := g
  exact congrArg Globals.mk (Array.toList_inj.mp hlist)

theorem Extends.refl (g : Globals) : g.Extends g := ⟨[], by simp⟩

theorem Extends.trans (h : g.Extends g') (h' : g'.Extends g'') : g.Extends g'' := by
  obtain ⟨names, hnames⟩ := h
  obtain ⟨names', hnames'⟩ := h'
  exact ⟨names ++ names', by simp [hnames', hnames]⟩

theorem Extends.size_le (h : g.Extends g') : g.size ≤ g'.size := by
  obtain ⟨names, hnames⟩ := h
  have hlength := congrArg List.length hnames
  simp only [List.length_append, Array.length_toList] at hlength
  unfold size
  omega

theorem Extends.check? (h : g.Extends g') (hcheck : g.check? name = some index) :
    g'.check? name = some index := by
  obtain ⟨names, hnames⟩ := h
  rw [check?_eq] at hcheck ⊢
  simp [hnames, List.findIdx?_append, hcheck]

theorem Extends.get? (h : g.Extends g') (hindex : index < g.size) :
    g'.get? index = g.get? index := by
  obtain ⟨names, hnames⟩ := h
  rw [get?_eq, get?_eq, hnames, List.getElem?_append_left (by simpa [size] using hindex)]

theorem Extends.get?_new (h : g.Extends g') (hnew : g.check? name = none)
    (hcheck : g'.check? name = some index) : g'.get? index = some .undef := by
  obtain ⟨names, hnames⟩ := h
  rw [check?_eq] at hnew hcheck
  rw [hnames, List.findIdx?_append, hnew, Option.none_or] at hcheck
  obtain ⟨k, hk, rfl⟩ := Option.map_eq_some_iff.mp hcheck
  obtain ⟨hlt, -⟩ := List.findIdx?_eq_some_iff_getElem.mp hk
  rw [get?_eq, hnames, List.getElem?_append_right (by omega)]
  simp only [List.length_map] at hlt
  simp [hlt]

theorem resolve_of_check? (h : g.check? name = some index) : g.resolve name = (index, g) := by
  simp [resolve, h]

theorem extends_resolve (g : Globals) (name : String) : g.Extends (g.resolve name).2 := by
  cases h : g.check? name with
  | some index =>
    rw [resolve_of_check? h]
    exact .refl g
  | none => exact ⟨[name], by simp [resolve, h]⟩

theorem check?_resolve (g : Globals) (name : String) :
    (g.resolve name).2.check? name = some (g.resolve name).1 := by
  cases h : g.check? name with
  | some index =>
    rw [resolve_of_check? h]
    exact h
  | none =>
    have hnone : g.slots.toList.findIdx? (·.1 == name) = none := by rw [← check?_eq, h]
    rw [check?_eq]
    simp [resolve, h, List.findIdx?_append, hnone]

/-- The table after names have been resolved one after the other. -/
def resolveAll (g : Globals) (names : List String) : Globals :=
  names.foldl (fun g name => (g.resolve name).2) g

theorem extends_resolveAll (g : Globals) (names : List String) :
    g.Extends (g.resolveAll names) := by
  induction names generalizing g with
  | nil => exact .refl g
  | cons name names ih => exact (g.extends_resolve name).trans (ih (g.resolve name).2)

end StackVM.Globals
