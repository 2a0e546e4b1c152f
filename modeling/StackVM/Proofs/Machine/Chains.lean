import Mathlib.Data.List.Chain
import StackVM.Proofs.Machine.Honesty.Lives
import StackVM.Proofs.Machine.Overloads.Resolution

/-! # Overload chains stay flat

However chains are stored, passed around and defined as overloads of one another or of themselves,
at every moment of a life each of them has members, and its members are natives and closures. So
the search for an overload never leads into the search of another chain. It goes through a finite
list from the newest member on and comes to its end, unless it gets to a native that does not come
back.
-/
namespace StackVM

/-- The work is a search that goes on after one of the overloads of a chain. -/
def Pending.IsSearch : Pending → Prop
  | .overloads _ _ _ => True
  | _ => False

namespace Config

/-- No search in the pending work waits for another one. -/
abbrev Apart (p : List Pending) : Prop := p.IsChain fun w below => ¬ (w.IsSearch ∧ below.IsSearch)

/-- Searches do not nest: none waits for another one, and what a search has got to is not a
chain. -/
structure OneLevel (c : Config) : Prop where
  apart : Apart c.pending
  top : ∀ r args, c.control = .dispatch (.chain r) args →
    ∀ w, c.pending.head? = some w → ¬ w.IsSearch

variable {host : Host} {c d : Config} {p : List Pending} {s : State} {args : List Value}
  {fs : List Function} {work : Pending} {base : Base} {pos next : Nat}

theorem Apart.cons (hp : Apart p)
    (h : work.IsSearch → ∀ w, p.head? = some w → ¬ w.IsSearch) : Apart (work :: p) := by
  cases p with
  | nil => exact .singleton work
  | cons w p => exact hp.cons_cons fun hboth => h hboth.1 w rfl hboth.2

theorem Apart.push (hp : Apart p) (h : ¬ work.IsSearch) : Apart (work :: p) :=
  hp.cons fun hwork => absurd hwork h

theorem Apart.running (hp : Apart p) (base : Base) (ip : Nat) (s : State) :
    OneLevel ⟨.run base ip, p, s⟩ := ⟨hp, nofun⟩

theorem Apart.dispatched (hp : Apart p) (result : Except Fault Dispatch) (s : State) :
    OneLevel ⟨.dispatched result, p, s⟩ := ⟨hp, nofun⟩

theorem Apart.exited (hp : Apart p) (result : Except Fault Exit) (s : State) :
    OneLevel ⟨.exited result, p, s⟩ := ⟨hp, nofun⟩

theorem act_oneLevel (hp : Apart p) (a : Action) (s : State) : (act p a s).OneLevel := by
  induction a generalizing s with
  | done | fault => exact hp.dispatched _ s
  | edit e resume ih => exact ih _ _
  | call callee args resume ih =>
    cases callee with
    | func f =>
      refine ⟨hp.push id, ?_⟩
      rintro r args ⟨⟩ w ⟨⟩
      exact id
    | _ => exact ih _ _ _
  | define native resume ih => exact ih _ _
  | reset resume ih => exact ih _

theorem tryNext_oneLevel (hp : Apart p) (hhead : ∀ w, p.head? = some w → ¬ w.IsSearch)
    (hfs : ∀ f ∈ fs, ∀ r, f ≠ .chain r) (missing : Bool) :
    (tryNext missing args p s fs).OneLevel := by
  cases fs with
  | nil => exact hp.dispatched _ s
  | cons f fs =>
    refine ⟨hp.cons fun _ => hhead, ?_⟩
    rintro r args ⟨⟩
    exact absurd rfl (hfs _ List.mem_cons_self r)

theorem dispatch_oneLevel {callee : Function} (hs : s.Coherent)
    (h : OneLevel ⟨.dispatch callee args, p, s⟩) : (dispatch host callee args p s).OneLevel := by
  cases callee with
  | closure r =>
    simp only [dispatch]
    split <;> exact h.apart.dispatched _ s
  | native r =>
    simp only [dispatch]
    split
    · exact h.apart.dispatched _ _
    · exact act_oneLevel h.apart _ _
  | chain r =>
    refine tryNext_oneLevel h.apart (h.top r args rfl) (fun f hf => ?_) false
    exact (hs.machine.store.overloads_live r f (List.mem_reverse.mp hf)).2

theorem proceed_oneLevel (hp : Apart p) (r : EStateM.Result Fault State Step) :
    (proceed base pos next p r).OneLevel := by
  unfold proceed
  split
  case h_1 | h_4 => exact hp.exited _ _
  case h_2 | h_3 => exact hp.running base _ _
  case h_5 =>
    split
    · exact hp.running base _ _
    · exact hp.exited _ _
    · exact hp.exited _ _
  case h_6 callee args s =>
    refine ⟨hp.push id, ?_⟩
    rintro _ _ - w ⟨⟩
    exact id

theorem deliver_oneLevel {result : Except Fault Dispatch} (hp : Apart (work :: p))
    (hwork : work.Live s.machine.store) (h : deliver result work p s = some d) : d.OneLevel := by
  have hrest : Apart p := hp.tail
  have hbelow : work.IsSearch → ∀ w, p.head? = some w → ¬ w.IsSearch := by
    intro hsearch w hw hboth
    obtain ⟨p, rfl⟩ := List.head?_eq_some_iff.mp hw
    exact (List.isChain_cons_cons.mp hp).1 ⟨hsearch, hboth⟩
  unfold deliver at h
  split at h <;> cases h
  case h_1 => exact tryNext_oneLevel hrest (hbelow trivial) (fun f hf => (hwork.1 f hf).2) true
  case h_2 => exact tryNext_oneLevel hrest (hbelow trivial) (fun f hf => (hwork.1 f hf).2) _
  case h_4 | h_5 => exact act_oneLevel hrest _ _
  case h_6 r =>
    simp only [runClosure]
    split
    · exact (hrest.push id).running _ _ _
    · exact act_oneLevel hrest _ _
  case h_3 => exact hrest.dispatched _ s
  case h_7 => exact hrest.exited _ s
  case h_8 => exact proceed_oneLevel hrest _

/-- One step: a search is started by a dispatch or goes on after an overload, and both happen over
work that is no search. -/
theorem step_oneLevel (hc : c.Coherent) (h : c.OneLevel) (hstep : step host c = some d) :
    d.OneLevel := by
  obtain ⟨control, p, s⟩ := c
  cases control with
  | run base ip =>
    cases hstep
    simp only [fetch]
    split
    · exact h.apart.exited _ s
    · exact proceed_oneLevel h.apart _
  | dispatch callee args =>
    cases hstep
    exact dispatch_oneLevel hc.state h
  | dispatched result =>
    cases p with
    | nil => cases hstep
    | cons work rest => exact deliver_oneLevel h.apart (hc.pending work List.mem_cons_self) hstep
  | exited result =>
    cases p with
    | nil => cases hstep
    | cons work rest =>
      cases work with
      | call | overloads | native => cases hstep
      | nested base savedSp entry resume =>
        cases hstep
        exact act_oneLevel h.apart.tail _ _

end Config

theorem Life.oneLevel {host : Host} {past : Past} {ctx : Context} {c : Config}
    (hhost : host.Honest) (h : Life host past (.run ctx c)) (hown : Past.OwnContexts past) :
    c.OneLevel := by
  generalize hnow : Moment.run ctx c = now at h
  induction h generalizing ctx c with
  | init => cases hnow
  | next hlife hnext ih =>
    subst hnow
    cases hnext with
    | start => exact Config.Apart.running .nil _ _ _
    | step hstep =>
      have hcoherent := (hlife.coherent hhost hown.tail).config _ _ rfl
      exact Config.step_oneLevel hcoherent (ih hown.tail rfl) hstep

/-- The functions are tried up to one that answers, or all of them decline; or a native that calls
values is tried, after those before it have declined, and it does not come back. -/
inductive SearchEnds (host : Host) (args : List Value) (fs : List Function) (s : State) : Prop
  | ends {who : Option Function} {result : Except Fault Dispatch} {t : State} :
      Selects host args fs s who result t → SearchEnds host args fs s
  | away {newer older : List Function} {n : NativeRef} {whys : List Failure} {t : State}
      {run : State → List Value → Action} : fs = newer ++ .native n :: older →
      Declines host args newer s whys t →
      (t.machine.store.native n).code.body host = .contextual run →
      (∀ result u, ¬ Resolves host args (.native n) t result u) → SearchEnds host args fs s

/-- A function that is not a chain has a result at once, unless it is a native that may call. -/
theorem exists_resolves_or_contextual (host : Host) (args : List Value) {f : Function}
    (hf : ∀ r, f ≠ .chain r) (s : State) :
    (∃ result t, Resolves host args f s result t) ∨
      ∃ n run, f = .native n ∧ (s.machine.store.native n).code.body host = .contextual run := by
  cases f with
  | closure r => exact .inl ⟨_, _, resolves_closure host args r s⟩
  | chain r => exact absurd rfl (hf r)
  | native n =>
    cases hbody : (s.machine.store.native n).code.body host with
    | pure run => exact .inl ⟨_, _, resolves_pure hbody⟩
    | contextual run => exact .inr ⟨n, run, rfl, hbody⟩

theorem searchEnds (host : Host) (args : List Value) {fs : List Function}
    (hfs : ∀ f ∈ fs, ∀ r, f ≠ .chain r) (s : State) : SearchEnds host args fs s := by
  induction fs generalizing s with
  | nil => exact .ends (selects_nil.mpr ⟨rfl, rfl, rfl⟩)
  | cons f fs ih =>
    obtain ⟨hf, hfs⟩ := List.forall_mem_cons.mp hfs
    by_cases hresolves : ∃ result t, Resolves host args f s result t
    · obtain ⟨result, t, hresult⟩ := hresolves
      cases hfailure : Dispatch.failure? result with
      | none => exact .ends (selects_cons.mpr (.inl ⟨hresult, hfailure, rfl⟩))
      | some why =>
        rw [Dispatch.eq_failed hfailure] at hresult
        cases ih hfs t with
        | ends hselects => exact .ends (selects_cons.mpr (.inr ⟨why, t, _, hresult, hselects, rfl⟩))
        | away heq hdeclines hbody haway =>
          exact .away (congrArg (f :: ·) heq) (.cons hresult hdeclines) hbody haway
    · rcases exists_resolves_or_contextual host args hf s with hdone | ⟨n, run, rfl, hbody⟩
      · exact absurd hdone hresolves
      · refine .away (List.nil_append _).symm .nil hbody fun result u hresult => ?_
        exact hresolves ⟨result, u, hresult⟩

/-- What the slot holds in which the instruction defines a function. -/
def State.defined? (s : State) : Instr → Option Value
  | ⟨.defGlobalFun, index⟩ => s.machine.globals.get? index.toNat
  | i => i.defines?.bind fun a => s.context.frames.head?.bind fun f => f.read? s.machine.store a

theorem modify_eq_self {α : Type} {xs : Array α} {i : Nat} {f : α → α}
    (h : ∀ x, xs[i]? = some x → f x = x) : xs.modify i f = xs := by
  refine Array.ext (by simp) fun j hj hj' => ?_
  rw [Array.getElem_modify]
  split
  next heq =>
    subst heq
    exact h _ (Array.getElem?_eq_getElem hj')
  next => rfl

theorem Globals.set_self {g : Globals} {index : Nat} {v : Value} (h : g.get? index = some v) :
    g.set index v = g := by
  refine congrArg Globals.mk (modify_eq_self fun slot hslot => ?_)
  obtain ⟨slot', hslot', rfl⟩ := Option.map_eq_some_iff.mp h
  cases hslot.symm.trans hslot'
  rfl

theorem Store.setSlot_self {st : Store} {k : Cell} {v : Value} (h : st.content? k = some v) :
    st.setSlot k.scope k.slot v = st := by
  have hsame : st.locals.modify k.scope.id (·.setIfInBounds k.slot v) = st.locals := by
    refine modify_eq_self fun slots hslots => ?_
    have hv : slots[k.slot]? = some v := by simpa [content?, Store.slots, hslots] using h
    obtain ⟨hlt, rfl⟩ := Array.getElem?_eq_some_iff.mp hv
    rw [Array.setIfInBounds, dif_pos hlt, Array.set_getElem_self]
  simp only [Store.setSlot, hsame]

theorem Store.defineOverload_self (st : Store) (r : ChainRef) (name : String) :
    st.defineOverload (.func (.chain r)) (.chain r) name = (.func (.chain r), st) := by
  have hsame : st.addOverload r (.chain r) = st :=
    congrArg (fun s => s.machine.store) (State.extend_self ⟨⟨.empty, .empty, .linking, st⟩, .new⟩ r)
  simp only [Store.defineOverload, hsame]

namespace Exec
variable {s : State} {r : ChainRef} {rest : List Value} {pos next index : Nat} {base : Base}

theorem defGlobalFun_self (hslot : s.machine.globals.get? index = some (.func (.chain r)))
    (hstack : s.context.stack = .func (.chain r) :: rest) :
    defGlobalFun pos index s =
      .ok .next { s with context := { s.context with stack := rest } } := by
  simp only [defGlobalFun, bind_apply, machine, hslot, popFunction, pop, hstack, create,
    State.withStore, Store.defineOverload_self, setGlobal, modifyMachine, Globals.set_self hslot]
  rfl

theorem defSlotFun_self {scope : LocalsRef} {slot : UInt8}
    (hcontent : s.machine.store.content? ⟨scope, slot.toNat⟩ = some (.func (.chain r)))
    (hstack : s.context.stack = .func (.chain r) :: rest) (name : String) :
    defSlotFun pos scope slot name s =
      .ok .next { s with context := { s.context with stack := rest } } := by
  have hself := Store.setSlot_self hcontent
  have hmerged : s.machine.store.defineOverload
      ((s.machine.store.content? ⟨scope, slot.toNat⟩).getD .undef) (.chain r) name =
        (.func (.chain r), s.machine.store) := by
    rw [hcontent]
    exact s.machine.store.defineOverload_self r name
  rw [defSlotFun_apply hstack hmerged]
  dsimp only at hself
  rw [hself]

theorem instr_define_self {i : Instr} (hslot : s.defined? i = some (.func (.chain r)))
    (hstack : s.context.stack = .func (.chain r) :: rest) :
    instr base pos next i s = .ok .next { s with context := { s.context with stack := rest } } := by
  have hlocal : ∀ a, i.defines? = some a →
      (s.context.frames.head?.bind fun f => f.read? s.machine.store a) = some (.func (.chain r)) →
      instr base pos next i s =
        .ok .next { s with context := { s.context with stack := rest } } := by
    intro a ha hread
    obtain ⟨f, hf, hread⟩ := Option.bind_eq_some_iff.mp hread
    obtain ⟨fs, hframes⟩ := List.head?_eq_some_iff.mp hf
    obtain ⟨k, hk, hcontent⟩ := Option.bind_eq_some_iff.mp hread
    obtain ⟨name, hinstr⟩ := instr_defines base pos next ha
    rw [hinstr, bind_apply, locate_apply hframes hk hcontent]
    obtain ⟨scope, slot⟩ := k
    obtain rfl : slot = a.slot.toNat := (Frame.cell?_eq_some_iff.mp hk).2.1
    exact defSlotFun_self hcontent hstack name
  obtain ⟨op, x⟩ := i
  cases op with
  | defGlobalFun => exact defGlobalFun_self hslot hstack
  | defLocalFun | defUpvarFun => exact hlocal _ rfl hslot
  | _ => cases hslot

end Exec

/-- What holds of overload chains at a moment. -/
structure Moment.FlatChains (host : Host) (now : Moment) : Prop where
  /-- A chain has members, and they are natives and closures. -/
  members : ∀ c ∈ now.machine.store.chains, c.overloads ≠ [] ∧
    ∀ f ∈ c.overloads, (∃ n, f = .native n) ∨ ∃ k, f = .closure k
  /-- The search of a chain does not lead into that of another. -/
  level : ∀ ctx c, now = .run ctx c → c.OneLevel
  /-- The search of a chain comes to its end. -/
  search : ∀ ctx c r args, now = .run ctx c → SearchEnds host args (c.state.newest r) c.state
  /-- A chain that is defined as an overload of itself is just taken off the stack. -/
  self : ∀ ctx c i r rest, now = .run ctx c → c.Fetches i →
    c.state.defined? i = some (.func (.chain r)) →
    c.state.context.stack = .func (.chain r) :: rest →
    ∃ base next, Config.step host c = some ⟨.run base next, c.pending,
      { c.state with context := { c.state.context with stack := rest } }⟩

/-- Overload chains are flat at every moment of a life, if the natives of the host make up no
references. -/
theorem overload_chains_flat {host : Host} {past : Past} {now : Moment} (hhost : host.Honest)
    (h : Life host past now) (hown : Past.OwnContexts past) : now.FlatChains host := by
  have hcoherent := h.coherent hhost hown
  refine ⟨?_, ?_, ?_, ?_⟩
  · intro c hc
    have hflat := hcoherent.machine.store.flat c hc
    refine ⟨hflat.nonempty, fun f hf => ?_⟩
    cases f with
    | native n => exact .inl ⟨n, rfl⟩
    | closure k => exact .inr ⟨k, rfl⟩
    | chain r => exact absurd hf (hflat.simple r)
  · rintro ctx c rfl
    exact h.oneLevel hhost hown
  · rintro ctx c r args rfl
    refine searchEnds host args (fun f hf => ?_) c.state
    exact (hcoherent.machine.store.overloads_live r f (List.mem_reverse.mp hf)).2
  · rintro ctx c i r rest rfl ⟨base, ip, next, hcontrol, hdecode⟩ hslot hstack
    obtain ⟨control, p, s⟩ := c
    cases hcontrol
    refine ⟨base, next, ?_⟩
    rw [Config.step_run hdecode, Exec.instr_define_self hslot hstack]
    rfl

/-- Code that adds the overloads of `+` to those of `-`, these to those of `+`, and these to
themselves. -/
def Program.interwoven : Array UInt8 :=
  (([⟨.fetchGlobal, (14 : UInt16)⟩, ⟨.defGlobalFun, (15 : UInt16)⟩,
    ⟨.fetchGlobal, (15 : UInt16)⟩, ⟨.defGlobalFun, (14 : UInt16)⟩,
    ⟨.fetchGlobal, (14 : UInt16)⟩, ⟨.defGlobalFun, (14 : UInt16)⟩] : List Instr).flatMap
      Instr.bytes).toArray

/-- The points of its run. -/
def Config.interwoven (n : Nat) : Config :=
  (path Host.none n (((Machine.init []).load Program.interwoven).runConfig .new 0)).2

theorem overload_chains_flat_interwoven :
    ∃ past, Host.none.Honest ∧ Life Host.none past (.run .new (.interwoven 5)) ∧
      Past.OwnContexts past ∧
      (Config.interwoven 5).state.machine.store.chains.toList.map (·.overloads.length) =
        [7, 4, 1, 1, 1, 1, 1, 1, 1, 1] ∧
      (Config.interwoven 5).state.context.stack = [.func (.chain ⟨0⟩)] ∧
      (Moment.run .new (.interwoven 5)).FlatChains Host.none ∧
      ∃ base next, Config.step Host.none (.interwoven 5) = some ⟨.run base next, [],
        { (Config.interwoven 5).state with context := .new }⟩ := by
  have hloaded : Life Host.none _ (.rest ((Machine.init []).load Program.interwoven)) :=
    (Life.init []).next (.load _ Program.interwoven)
  obtain ⟨past, hlife, hown⟩ := hloaded.reached trivial 0 5
  have hpoint : (Config.interwoven 5).control = .run ⟨0, 0, false⟩ 15 ∧
      (Config.interwoven 5).pending.isEmpty = true ∧
      (Config.interwoven 5).state.machine.program.decodeAt 15 =
        .ok (⟨.defGlobalFun, (14 : UInt16)⟩, 18) ∧
      (Config.interwoven 5).state.machine.store.chains.toList.map (·.overloads.length) =
        [7, 4, 1, 1, 1, 1, 1, 1, 1, 1] ∧
      (Config.interwoven 5).state.defined? ⟨.defGlobalFun, (14 : UInt16)⟩ =
        some (.func (.chain ⟨0⟩)) ∧
      (Config.interwoven 5).state.context = ⟨[.func (.chain ⟨0⟩)], [], []⟩ := by
    decide +kernel
  obtain ⟨hrun, hpending, hdecode, hlengths, hslot, hcontext⟩ := hpoint
  have hstack := congrArg Context.stack hcontext
  have hflat : (Moment.run .new (.interwoven 5)).FlatChains Host.none :=
    overload_chains_flat Host.none_honest hlife hown
  obtain ⟨base, next, hstep⟩ :=
    hflat.self _ _ _ _ [] rfl ⟨_, _, _, hrun, hdecode⟩ hslot hstack
  refine ⟨past, Host.none_honest, hlife, hown, hlengths, hstack, hflat, base, next, ?_⟩
  rw [List.isEmpty_iff.mp hpending, hcontext] at hstep
  exact hstep

end StackVM
