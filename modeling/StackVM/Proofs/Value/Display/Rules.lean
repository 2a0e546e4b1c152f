import Mathlib.Data.List.Perm.Subperm
import Mathlib.Logic.Relation
import StackVM.Proofs.Asm.Spelling.Lines
import StackVM.Value.Render

/-! # What is written for a value

`Writes` says what is written for a value, by rules that follow the value down without a bound on
the depth. A guard decides which containers are not written out, given the containers that are open
around them. The guard of ancestors always gives one text, which is the rendering, since a path of
open containers never holds one twice.
-/
namespace StackVM

def Container.value : Container → Value
  | .arr r => .arr r
  | .hash r => .hash r

/-- What stands for a container that is not written out. -/
def Container.ellipsis : Container → String
  | .arr _ => "[...]"
  | .hash _ => "\x7b...\x7d"

def Value.container? : Value → Option Container
  | .arr r => some (.arr r)
  | .hash r => some (.hash r)
  | _ => none

theorem Container.container?_value (c : Container) : c.value.container? = some c := by
  cases c <;> rfl

theorem Container.eq_value {v : Value} {c : Container} (h : v.container? = some c) :
    v = c.value := by
  cases v <;> cases h <;> rfl

theorem Key.container?_value (k : Key) : k.value.container? = none := by
  cases k <;> rfl

/-- Where a value is written: by itself, or inside a container. -/
inductive Spot
  | alone
  | inside

/-- Which containers are not written out, given those that are open around them, innermost first. -/
abbrev Guard := List Container → Container → Prop

/-- A container is not written out inside itself. -/
def Guard.ancestors : Guard := fun path c => c ∈ path

/-- Every container is written out. -/
def Guard.never : Guard := fun _ _ => False

namespace Store

/-- The text of a value at a spot, inside the containers of the path. -/
inductive Writes (st : Store) (guard : Guard) : Spot → List Container → Value → String → Prop
  | text {path : List Container} {s : String} : Writes st guard .alone path (.str s) s
  | quoted {path : List Container} {s : String} :
      Writes st guard .inside path (.str s) (Text.quote s)
  | scalar {spot : Spot} {path : List Container} {v : Value} :
      v.container? = none → v.str? = none → Writes st guard spot path v (st.renderScalar v)
  | arrAgain {spot : Spot} {path : List Container} {r : ArrRef} :
      guard path (.arr r) → Writes st guard spot path (.arr r) "[...]"
  | hashAgain {spot : Spot} {path : List Container} {r : HashRef} :
      guard path (.hash r) → Writes st guard spot path (.hash r) "\x7b...\x7d"
  | arr {spot : Spot} {path : List Container} {r : ArrRef} (text : Value → String) :
      ¬ guard path (.arr r) →
      (∀ v ∈ (st.arr r).toList, Writes st guard .inside (.arr r :: path) v (text v)) →
      Writes st guard spot path (.arr r) (renderItems ((st.arr r).toList.map text))
  | hash {spot : Spot} {path : List Container} {r : HashRef} (text : Value → String) :
      ¬ guard path (.hash r) →
      (∀ e ∈ st.hash r, Writes st guard .inside (.hash r :: path) e.1.value (text e.1.value)) →
      (∀ e ∈ st.hash r, Writes st guard .inside (.hash r :: path) e.2 (text e.2)) →
      Writes st guard spot path (.hash r)
        (renderPairs ((st.hash r).map fun (k, v) => (text k.value, text v)))

variable {st : Store} {guard : Guard} {spot : Spot} {path : List Container} {v : Value}

theorem Writes.unique {t t' : String} (h : st.Writes guard spot path v t)
    (h' : st.Writes guard spot path v t') : t = t' := by
  induction h generalizing t' with
  | text =>
    cases h' with
    | text => rfl
    | scalar _ hstr => cases hstr
  | quoted =>
    cases h' with
    | quoted => rfl
    | scalar _ hstr => cases hstr
  | scalar hcontainer hstr =>
    cases h' with
    | text | quoted => cases hstr
    | scalar => rfl
    | arrAgain | arr | hashAgain | hash => cases hcontainer
  | arrAgain hagain =>
    cases h' with
    | arrAgain => rfl
    | scalar hcontainer => cases hcontainer
    | arr _ hfresh => exact absurd hagain hfresh
  | hashAgain hagain =>
    cases h' with
    | hashAgain => rfl
    | scalar hcontainer => cases hcontainer
    | hash _ hfresh => exact absurd hagain hfresh
  | arr text hfresh _ ih =>
    cases h' with
    | arrAgain hagain => exact absurd hagain hfresh
    | scalar hcontainer => cases hcontainer
    | arr text' _ hitems =>
      exact congrArg renderItems (List.map_congr_left fun v hv => ih v hv (hitems v hv))
  | hash text hfresh _ _ ihkeys ihvalues =>
    cases h' with
    | hashAgain hagain => exact absurd hagain hfresh
    | scalar hcontainer => cases hcontainer
    | hash text' _ hkeys hvalues =>
      refine congrArg renderPairs (List.map_congr_left fun e he => ?_)
      exact Prod.ext (ihkeys e he (hkeys e he)) (ihvalues e he (hvalues e he))

/-- The values that a container holds. -/
def contents (st : Store) : Container → List Value
  | .arr r => (st.arr r).toList
  | .hash r => (st.hash r).map Prod.snd

/-- The containers of the store. -/
def containers (st : Store) : List Container :=
  (List.range st.arrays.size).map (fun n => .arr ⟨n⟩) ++
    (List.range st.hashes.size).map fun n => .hash ⟨n⟩

theorem lt_size_arrays {r : ArrRef} (h : 0 < (st.arr r).size) : r.id < st.arrays.size := by
  apply Classical.not_not.mp
  intro hge
  simp [Store.arr, Nat.le_of_not_lt hge] at h

theorem lt_size_hashes {r : HashRef} (h : 0 < (st.hash r).length) : r.id < st.hashes.size := by
  apply Classical.not_not.mp
  intro hge
  simp [Store.hash, Nat.le_of_not_lt hge] at h

theorem mem_containers_of_mem_contents {c : Container} (h : v ∈ st.contents c) :
    c ∈ st.containers := by
  have hpos := List.length_pos_of_mem h
  cases c with
  | arr r =>
    have hr : r.id < st.arrays.size := lt_size_arrays (by simpa [contents] using hpos)
    simpa [containers] using ⟨r.id, hr, rfl⟩
  | hash r =>
    have hr : r.id < st.hashes.size := lt_size_hashes (by simpa [contents] using hpos)
    simpa [containers] using ⟨r.id, hr, rfl⟩

/-- The open containers are containers of the store, each open once. -/
structure Open (st : Store) (path : List Container) : Prop where
  nodup : path.Nodup
  stored : path ⊆ st.containers

theorem Open.length_le (h : st.Open path) : path.length ≤ st.arrays.size + st.hashes.size := by
  have hle := (List.subperm_of_subset h.nodup h.stored).length_le
  simpa [containers] using hle

theorem Open.cons (h : st.Open path) {c : Container} (hfresh : c ∉ path)
    (hv : v ∈ st.contents c) : st.Open (c :: path) :=
  ⟨List.nodup_cons.mpr ⟨hfresh, h.nodup⟩,
    List.cons_subset.mpr ⟨mem_containers_of_mem_contents hv, h.stored⟩⟩

/-- The rendering at a spot. -/
def renderAt (st : Store) (depth : Nat) (path : List Container) (v : Value) : Spot → String
  | .alone => st.renderFrom depth path v
  | .inside => renderInner (st.renderFrom depth path) v

theorem renderAt_of_str?_eq_none (depth : Nat) (hv : v.str? = none) :
    st.renderAt depth path v spot = st.renderFrom depth path v := by
  cases spot with
  | alone => rfl
  | inside =>
    cases v with
    | str s => cases hv
    | _ => rfl

theorem renderFrom_scalar (depth : Nat) (hv : v.container? = none) :
    st.renderFrom depth path v = st.renderScalar v := by
  cases depth with
  | zero => rfl
  | succ depth =>
    cases v with
    | arr | hash => cases hv
    | _ => rfl

/-- The bound on the depth is never what ends the rendering: a path that uses it up would hold more
containers than there are. -/
theorem writes_renderAt {depth : Nat} (hpath : st.Open path)
    (hdepth : st.arrays.size + st.hashes.size < depth + path.length) :
    st.Writes .ancestors spot path v (st.renderAt depth path v spot) := by
  induction depth generalizing path v spot with
  | zero =>
    have hle := hpath.length_le
    omega
  | succ depth ih =>
    have hinner : ∀ {c w}, c ∉ path → w ∈ st.contents c → ∀ u,
        st.Writes .ancestors .inside (c :: path) u (st.renderAt depth (c :: path) u .inside) := by
      intro c w hfresh hw u
      refine ih (hpath.cons hfresh hw) ?_
      rw [List.length_cons]
      omega
    cases v with
    | str s =>
      cases spot with
      | alone => exact .text
      | inside => exact .quoted
    | arr r =>
      rw [renderAt_of_str?_eq_none _ rfl, renderFrom]
      by_cases hagain : Container.arr r ∈ path
      · rw [if_pos (List.contains_iff_mem.mpr hagain)]
        exact .arrAgain hagain
      · rw [if_neg (by simpa using hagain)]
        refine .arr _ hagain fun v hv => ?_
        exact hinner hagain (c := .arr r) hv v
    | hash r =>
      rw [renderAt_of_str?_eq_none _ rfl, renderFrom]
      by_cases hagain : Container.hash r ∈ path
      · rw [if_pos (List.contains_iff_mem.mpr hagain)]
        exact .hashAgain hagain
      · rw [if_neg (by simpa using hagain)]
        have hentry : ∀ e ∈ st.hash r, e.2 ∈ st.contents (.hash r) := fun e he =>
          List.mem_map_of_mem he
        refine .hash _ hagain (fun e he => ?_) fun e he => ?_
        · exact hinner hagain (hentry e he) e.1.value
        · exact hinner hagain (hentry e he) e.2
    | _ =>
      rw [renderAt_of_str?_eq_none _ rfl, renderFrom_scalar _ rfl]
      exact .scalar rfl rfl

/-- The rendering is what the rules give when no container is written out inside itself. -/
theorem writes_ancestors_iff {t : String} :
    st.Writes .ancestors .alone [] v t ↔ st.render v = t := by
  have hopen : st.Open [] := ⟨List.nodup_nil, List.nil_subset _⟩
  have hrender : st.Writes .ancestors .alone [] v (st.renderAt _ [] v .alone) :=
    writes_renderAt hopen (Nat.lt_succ_self _)
  constructor
  · exact hrender.unique
  · rintro rfl
    exact hrender

end Store
end StackVM
