import StackVM.Proofs.Machine.Calling.Endings
import StackVM.Proofs.Machine.Fatal.Atomicity
import StackVM.Proofs.Machine.Resolution.Overloads
import StackVM.Proofs.Value.Bisimulation.Equality

/-! # Chains of closures and built-in natives

A closure only looks at the arguments, and a built-in native that fails has done nothing. So a
dispatch that fails, or that chooses a closure, leaves the state as it was, and whatever is added to
a chain does not change what the older overloads answer.
-/
namespace StackVM

/-- A type is the other one or descends from it. -/
def Tag.Descends : Tag → Tag → Prop := Relation.ReflTransGen fun t u => t.parent? = some u

theorem Tag.mem_lineage {t u : Tag} :
    u ∈ t.lineage ↔ u = t ∨ ∃ v, t.parent? = some v ∧ u ∈ v.lineage := by
  rw [lineage_eq, List.mem_cons]
  cases t.parent? <;> simp

theorem Tag.isSubtype_iff {t u : Tag} : t.isSubtype u = true ↔ t.Descends u := by
  rw [isSubtype, List.contains_iff_mem]
  constructor
  · intro h
    induction hn : t.lineage.length generalizing t with
    | zero => simp [List.length_eq_zero_iff.mp hn] at h
    | succ n ih =>
      rcases mem_lineage.mp h with rfl | ⟨v, hv, hu⟩
      · exact .refl
      · have hlength := congrArg List.length (lineage_eq t)
        simp only [hv, Option.map_some, Option.getD_some, List.length_cons] at hlength
        exact .head hv (ih hu (by omega))
  · intro h
    induction h using Relation.ReflTransGen.head_induction_on with
    | refl => exact mem_lineage.mpr (.inl rfl)
    | head hv _ ih => exact mem_lineage.mpr (.inr ⟨_, hv, ih⟩)

/-- A value fits a declared type if its own type descends from it. The undefined marker fits the
root of the types only. -/
def Value.Fits (v : Value) (declared : Tag) : Prop :=
  (∀ t, v.tag? = some t → t.Descends declared) ∧ (v = .undef → declared = .any)

/-- The arguments are as many as the closure declares, and each fits its declared type. -/
structure Closure.Fits (c : Closure) (args : List Value) : Prop where
  count : args.length = c.params.toNat
  types : ∀ (n : Nat) declared v, c.paramTypes[n]? = some declared → args[n]? = some v →
    v.Fits declared

theorem Closure.accepts_iff {c : Closure} {args : List Value} :
    c.accepts args = true ↔ c.Fits args := by
  simp only [accepts, Bool.and_eq_true, beq_iff_eq, List.all_eq_true]
  constructor
  · rintro ⟨hcount, htypes⟩
    refine ⟨hcount, fun n declared v hdeclared hv => ?_⟩
    have hfits := htypes (declared, v)
      (List.mem_of_getElem? (List.getElem?_zip_eq_some.mpr ⟨hdeclared, hv⟩))
    cases v <;> simpa [Value.Fits, Value.tag?, Tag.isSubtype_iff] using hfits
  · rintro ⟨hcount, htypes⟩
    refine ⟨hcount, ?_⟩
    rintro ⟨declared, v⟩ hmem
    obtain ⟨n, hn⟩ := List.mem_iff_getElem?.mp hmem
    obtain ⟨hdeclared, hv⟩ := List.getElem?_zip_eq_some.mp hn
    have hfits := htypes n declared v hdeclared hv
    cases v <;> simpa [Value.Fits, Value.tag?, Tag.isSubtype_iff] using hfits

namespace Store
variable {st : Store}

theorem equalFrom_addOverload (r : ChainRef) (g : Function) (depth : Nat) :
    (st.addOverload r g).equalFrom depth = st.equalFrom depth := by
  induction depth with
  | zero => rfl
  | succ depth ih =>
    funext path a b
    cases hpair : a.pair? b with
    | none => rw [equalFrom_scalar _ hpair, equalFrom_scalar _ hpair]
    | some p =>
      obtain ⟨rfl, rfl⟩ := ContainerPair.eq_of_pair? hpair
      have hpartners : (st.addOverload r g).partners p = st.partners p := by cases p <;> rfl
      have hequal : (st.addOverload r g).equalPartners depth = st.equalPartners depth := by
        funext path c
        rw [equalPartners, equalPartners, ih]
      rw [equalFrom_pair, equalFrom_pair, hpartners, hequal]

theorem apply_addOverload (r : ChainRef) (g : Function) (e : Edit) :
    (st.addOverload r g).apply e = ((st.apply e).1, (st.apply e).2.addOverload r g) := by
  cases e <;> rfl

end Store

theorem PureAction.perform_addOverload (a : PureAction) (st : Store) (r : ChainRef) (g : Function) :
    a.perform (st.addOverload r g) = ((a.perform st).1, (a.perform st).2.addOverload r g) := by
  induction a generalizing st with
  | done result => rfl
  | edit e resume ih =>
    simp only [perform, Store.apply_addOverload]
    exact ih _ _

namespace Builtin
variable {b : Builtin} {run : Store → List Value → PureAction}

theorem run_addOverload (h : b.body = .pure run) (st : Store) (r : ChainRef) (g : Function)
    (args : List Value) : run (st.addOverload r g) args = run st args := by
  cases b with
  | equal =>
    cases h
    unfold equalValues Store.equal
    rw [Store.equalFrom_addOverload]
    rfl
  | call => cases h
  | _ => cases h; rfl

end Builtin

/-- The state with another store. -/
def State.put (s : State) (st : Store) : State :=
  { s with machine := { s.machine with store := st } }

/-- The state with a function added to a chain. -/
def State.extend (s : State) (r : ChainRef) (f : Function) : State :=
  s.put (s.machine.store.addOverload r f)

/-- The overloads of a chain, from the newest one on. -/
def State.newest (s : State) (r : ChainRef) : List Function :=
  (s.machine.store.chain r).overloads.reverse

section Extend
variable {s : State} {r g : ChainRef}

theorem State.newest_extend (hr : r.id < s.machine.store.chains.size) (f : Function) :
    (s.extend r f).newest r = (s.machine.store.members r f).reverse ++ s.newest r := by
  simp [newest, extend, put, Store.addOverload, Store.chain, Array.getElem_modify, hr]

theorem State.newest_extend_of_ne (hg : g ≠ r) (f : Function) :
    (s.extend r f).newest g = s.newest g := by
  have hid : r.id ≠ g.id := by
    intro h
    cases g
    cases r
    cases h
    exact hg rfl
  simp [newest, extend, put, Store.addOverload, Store.chain, Array.getElem?_modify, hid]

theorem State.extend_self (s : State) (r : ChainRef) : s.extend r (.chain r) = s := by
  have hsame : s.machine.store.chains.modify r.id
      (fun c => { c with overloads := c.overloads ++ [] }) = s.machine.store.chains := by
    refine Array.ext (by simp) fun i _ _ => ?_
    rw [Array.getElem_modify]
    split <;> simp
  simp only [extend, put, Store.addOverload, Store.members, ↓reduceIte, hsame]

end Extend

namespace Store

/-- A closure or a built-in native. -/
def Core (st : Store) : Function → Prop
  | .closure _ => True
  | .native r => ∃ b, (st.native r).code = .builtin b
  | .chain _ => False

end Store

/-- All overloads of the chain are closures and built-in natives. -/
def State.CoreChain (s : State) (r : ChainRef) : Prop := ∀ f ∈ s.newest r, s.machine.store.Core f

/-- Nothing has run: a closure was chosen, or nothing was. -/
def Dispatch.Idle : Dispatch → Prop
  | .enter _ | .settled (.failed _) => True
  | .settled (.ok _) | .settled (.exception _) => False

theorem Dispatch.idle_failed (why : Failure) : (Dispatch.settled (.failed why)).Idle := trivial

section Core
variable {host : Host} {args : List Value} {f : Function} {fs : List Function} {s t u : State}
  {d : Dispatch} {r : ChainRef} {g : Function} {who : Option Function}
  {result : Except Fault Dispatch}

theorem exists_act_afterCall (callee : Function) (reply : Except Fault MethodResult) (u : State) :
    ∃ result t,
      Config.act [] (Builtin.afterCall (.func callee) reply u) u = ⟨.dispatched result, [], t⟩ ∧
      ∀ d, result = .ok d → ¬ d.Idle := by
  cases reply with
  | error f => exact ⟨_, _, rfl, nofun⟩
  | ok result =>
    refine ⟨_, _, Config.act_afterCall [] callee result u, ?_⟩
    rintro d ⟨⟩
    cases result <;> exact id

/-- Given something to call, the native `call` neither fails nor chooses a closure. -/
theorem Resolves.not_idle_of_isCall (hf : s.machine.store.Core f) (hcall : f.IsCall s.machine.store)
    (hargs : args ≠ []) (h : Resolves host args f s (.ok d) t) : ¬ d.Idle := by
  cases hcall with
  | chain => exact hf.elim
  | @native r hcode =>
    obtain ⟨callee, args, rfl⟩ := List.exists_cons_of_ne_nil hargs
    have hstep : Config.step host ⟨.dispatch (.native r) (callee :: args), [], s⟩ =
        some (Config.act [] (Builtin.callValue (callee :: args)) s) := by
      simp [Config.step, Config.dispatch, hcode, NativeCode.body, Builtin.body]
    have hrun := (Config.reaches_iff_of_step hstep rfl).mp (resolves_iff.mp h)
    cases callee with
    | func callee =>
      have hwaits : Config.Reaches host ⟨.dispatch callee args,
          [.native args (Builtin.afterCall (.func callee))], s⟩ ⟨.dispatched (.ok d), [], t⟩ := hrun
      obtain ⟨reply, u, hreply⟩ := exists_reply_of_reaches hwaits
      obtain ⟨result, t', hact, hresult⟩ := exists_act_afterCall callee reply u
      rw [hact, Config.reaches_iff_of_ended rfl] at hreply
      cases hreply
      exact hresult d rfl
    | _ =>
      cases (Config.reaches_iff_of_ended rfl).mp hrun
      exact id

theorem resolves_closure (host : Host) (args : List Value) (c : ClosureRef) (s : State) :
    Resolves host args (.closure c) s (.ok (if (s.machine.store.closure c).accepts args then
      .enter c else .settled (.failed .argsMismatch))) s := by
  refine resolves_of_dispatch ?_
  rw [Config.dispatch]
  split <;> rfl

theorem resolves_pure {n : NativeRef} {run : Store → List Value → PureAction}
    (h : (s.machine.store.native n).code.body host = .pure run) :
    Resolves host args (.native n) s
      (.ok (.settled ((run s.machine.store args).perform s.machine.store).1))
      (s.put ((run s.machine.store args).perform s.machine.store).2) := by
  refine resolves_of_dispatch ?_
  simp only [Config.dispatch, h]
  rfl

/-- Whatever else answers, answers at once, and in the same way if a chain is extended. -/
theorem exists_resolves_of_core (host : Host) (hf : s.machine.store.Core f)
    (hcall : f.IsCall s.machine.store → args = []) :
    ∃ d t, (d.Idle → t = s) ∧ Resolves host args f s (.ok d) t ∧
      ∀ r g, Resolves host args f (s.extend r g) (.ok d) (t.extend r g) := by
  cases f with
  | chain r => exact hf.elim
  | closure c =>
    exact ⟨_, s, fun _ => rfl, resolves_closure host args c s,
      fun r g => resolves_closure host args c (s.extend r g)⟩
  | native n =>
    obtain ⟨b, hcode⟩ := hf
    have hsame : ∀ u : State, u.machine.store.natives = s.machine.store.natives →
        (u.machine.store.native n).code = .builtin b := by
      intro u hu
      rw [Store.native, hu, ← Store.native, hcode]
    cases hbody : b.body with
    | pure run =>
      have hpure : ∀ u : State, u.machine.store.natives = s.machine.store.natives →
          (u.machine.store.native n).code.body host = .pure run := by
        intro u hu
        rw [hsame u hu]
        exact hbody
      refine ⟨_, _, fun hidle => ?_, resolves_pure (hpure s rfl), fun r g => ?_⟩
      · cases hresult : ((run s.machine.store args).perform s.machine.store).1 with
        | failed why =>
          have hstore : ((run s.machine.store args).perform s.machine.store).2 =
              s.machine.store := Builtin.body_declines hbody (Prod.ext hresult rfl)
          rw [hstore]
          rfl
        | ok | exception =>
          rw [hresult] at hidle
          exact hidle.elim
      · have hextended : Resolves host args (.native n) (s.extend r g) _ _ :=
          resolves_pure (hpure (s.extend r g) rfl)
        have hstore : (s.extend r g).machine.store = s.machine.store.addOverload r g := rfl
        rw [hstore, Builtin.run_addOverload hbody, PureAction.perform_addOverload] at hextended
        exact hextended
    | contextual run =>
      obtain rfl : b = .call := by
        cases b with
        | call => rfl
        | _ => cases hbody
      obtain rfl := hcall (.native hcode)
      have hfails : ∀ u : State, u.machine.store.natives = s.machine.store.natives →
          Resolves host [] (.native n) u (.ok (.settled (.failed .argsMismatch))) u := by
        intro u hu
        refine resolves_of_dispatch ?_
        simp only [Config.dispatch, hsame u hu, NativeCode.body, Builtin.body]
        rfl
      exact ⟨_, s, fun _ => rfl, hfails s rfl, fun r g => hfails (s.extend r g) rfl⟩

theorem Resolves.eq_of_idle (hf : s.machine.store.Core f) (h : Resolves host args f s (.ok d) t)
    (hd : d.Idle) : t = s := by
  by_cases hcall : f.IsCall s.machine.store → args = []
  · obtain ⟨d', t', hidle, hs, -⟩ := exists_resolves_of_core host hf hcall
    obtain ⟨⟨⟩, rfl⟩ := h.unique hs
    exact hidle hd
  · obtain ⟨hcall, hargs⟩ := Classical.not_imp.mp hcall
    exact absurd hd (h.not_idle_of_isCall hf hcall hargs)

theorem resolves_extend_iff_of_idle (hf : s.machine.store.Core f) (hd : d.Idle) :
    Resolves host args f (s.extend r g) (.ok d) u ↔
      u = s.extend r g ∧ Resolves host args f s (.ok d) s := by
  by_cases hcall : f.IsCall s.machine.store → args = []
  · obtain ⟨d', t', hidle, hs, hextended⟩ := exists_resolves_of_core host hf hcall
    constructor
    · intro h
      obtain ⟨⟨⟩, rfl⟩ := h.unique (hextended r g)
      cases hidle hd
      exact ⟨rfl, hs⟩
    · rintro ⟨rfl, h⟩
      obtain ⟨⟨⟩, rfl⟩ := h.unique hs
      exact hextended r g
  · obtain ⟨hcall, hargs⟩ := Classical.not_imp.mp hcall
    have hextended : f.IsCall (s.extend r g).machine.store := by
      cases hcall with
      | native hcode => exact .native hcode
      | chain => exact hf.elim
    have hf' : (s.extend r g).machine.store.Core f := by cases f <;> exact hf
    constructor
    · intro h
      exact absurd hd (h.not_idle_of_isCall hf' hextended hargs)
    · rintro ⟨-, h⟩
      exact absurd hd (h.not_idle_of_isCall hf hcall hargs)

theorem resolves_extend_iff (hf : s.machine.store.Core f) (hcall : ¬ f.IsCall s.machine.store) :
    Resolves host args f (s.extend r g) result u ↔
      ∃ t, u = t.extend r g ∧ Resolves host args f s result t := by
  obtain ⟨d, t, -, hs, hextended⟩ :=
    exists_resolves_of_core host hf fun h : f.IsCall s.machine.store => absurd h hcall
  constructor
  · intro h
    obtain ⟨rfl, rfl⟩ := h.unique (hextended r g)
    exact ⟨t, rfl, hs⟩
  · rintro ⟨t', rfl, h⟩
    obtain ⟨rfl, rfl⟩ := h.unique hs
    exact hextended r g

theorem Declines.eq_of_core {whys : List Failure} (hfs : ∀ f ∈ fs, s.machine.store.Core f)
    (h : Declines host args fs s whys t) : t = s := by
  induction h with
  | nil => rfl
  | cons hfails _ ih =>
    obtain ⟨hf, hfs⟩ := List.forall_mem_cons.mp hfs
    cases hfails.eq_of_idle hf (Dispatch.idle_failed _)
    exact ih hfs

theorem declines_extend_iff {whys : List Failure} (hfs : ∀ f ∈ fs, s.machine.store.Core f) :
    Declines host args fs (s.extend r g) whys u ↔
      u = s.extend r g ∧ Declines host args fs s whys s := by
  induction fs generalizing whys with
  | nil =>
    constructor
    · rintro ⟨⟩
      exact ⟨rfl, .nil⟩
    · rintro ⟨rfl, ⟨⟩⟩
      exact .nil
  | cons f fs ih =>
    obtain ⟨hf, hfs⟩ := List.forall_mem_cons.mp hfs
    constructor
    · rintro (_ | ⟨hfails, hdeclines⟩)
      obtain ⟨rfl, hf'⟩ := (resolves_extend_iff_of_idle hf (Dispatch.idle_failed _)).mp hfails
      obtain ⟨rfl, hfs'⟩ := (ih hfs).mp hdeclines
      exact ⟨rfl, .cons hf' hfs'⟩
    · rintro ⟨rfl, _ | ⟨hfails, hdeclines⟩⟩
      cases hfails.eq_of_idle hf (Dispatch.idle_failed _)
      exact .cons ((resolves_extend_iff_of_idle hf (Dispatch.idle_failed _)).mpr ⟨rfl, hfails⟩)
        ((ih hfs).mpr ⟨rfl, hdeclines⟩)

theorem Selects.eq_of_idle (hfs : ∀ f ∈ fs, s.machine.store.Core f)
    (h : Selects host args fs s who (.ok d) t) (hd : d.Idle) : t = s := by
  cases h with
  | exhausted hdeclines => exact hdeclines.eq_of_core hfs
  | answer heq hdeclines hresolves =>
    subst heq
    obtain ⟨hnewer, holder⟩ := List.forall_mem_append.mp hfs
    cases hdeclines.eq_of_core hnewer
    exact hresolves.eq_of_idle (List.forall_mem_cons.mp holder).1 hd

/-- Unless the native `call` answers, it makes no difference that a chain is extended. -/
theorem selects_extend_iff (hfs : ∀ f ∈ fs, s.machine.store.Core f)
    (hwho : ∀ f ∈ who, ¬ f.IsCall s.machine.store) :
    Selects host args fs (s.extend r g) who result u ↔
      ∃ t, u = t.extend r g ∧ Selects host args fs s who result t := by
  constructor
  · rintro (⟨heq, hdeclines, hresolves, hnone⟩ | ⟨hdeclines⟩)
    · subst heq
      obtain ⟨hnewer, holder⟩ := List.forall_mem_append.mp hfs
      obtain ⟨rfl, hdeclines'⟩ := (declines_extend_iff hnewer).mp hdeclines
      obtain ⟨t, rfl, hresolves'⟩ := (resolves_extend_iff (List.forall_mem_cons.mp holder).1
        (hwho _ rfl)).mp hresolves
      exact ⟨t, rfl, .answer rfl hdeclines' hresolves' hnone⟩
    · obtain ⟨rfl, hdeclines'⟩ := (declines_extend_iff hfs).mp hdeclines
      exact ⟨s, rfl, .exhausted hdeclines'⟩
  · rintro ⟨t, rfl, ⟨heq, hdeclines, hresolves, hnone⟩ | ⟨hdeclines⟩⟩
    · subst heq
      obtain ⟨hnewer, holder⟩ := List.forall_mem_append.mp hfs
      cases hdeclines.eq_of_core hnewer
      refine .answer rfl ((declines_extend_iff hnewer).mpr ⟨rfl, hdeclines⟩) ?_ hnone
      exact (resolves_extend_iff (List.forall_mem_cons.mp holder).1 (hwho _ rfl)).mpr
        ⟨t, rfl, hresolves⟩
    · cases hdeclines.eq_of_core hfs
      exact .exhausted ((declines_extend_iff hfs).mpr ⟨rfl, hdeclines⟩)

end Core
end StackVM
