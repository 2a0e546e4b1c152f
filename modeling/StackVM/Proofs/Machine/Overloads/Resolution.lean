import StackVM.Proofs.Machine.Overloads.Core

/-! # Added overloads

A chain with an added closure or an added chain asks what was added first, and gives what the old
overloads gave if that fails. The native `call` is different: it runs code that may use the very
chain it is in.
-/
namespace StackVM
section Core
variable {host : Host} {args : List Value} {f : Function} {s t u : State} {d : Dispatch}
  {r : ChainRef} {g : Function} {who : Option Function} {result : Except Fault Dispatch}

theorem resolves_closure_of_fits {c : ClosureRef} (h : (s.machine.store.closure c).Fits args) :
    Resolves host args (.closure c) s (.ok (.enter c)) s := by
  have hresolves := resolves_closure host args c s
  rwa [if_pos (Closure.accepts_iff.mpr h)] at hresolves

theorem resolves_closure_of_not_fits {c : ClosureRef}
    (h : ¬ (s.machine.store.closure c).Fits args) :
    Resolves host args (.closure c) s (.ok (.settled (.failed .argsMismatch))) s := by
  have hresolves := resolves_closure host args c s
  rwa [if_neg fun haccepts => h (Closure.accepts_iff.mp haccepts)] at hresolves

theorem newest_extend_closure (hr : r.id < s.machine.store.chains.size) (c : ClosureRef) :
    (s.extend r (.closure c)).newest r = .closure c :: s.newest r :=
  State.newest_extend hr _

theorem newest_extend_chain {g : ChainRef} (hr : r.id < s.machine.store.chains.size) (hg : g ≠ r) :
    (s.extend r (.chain g)).newest r = s.newest g ++ s.newest r := by
  rw [State.newest_extend hr, Store.members, if_neg hg]
  rfl

theorem resolves_extend_of_fits {c : ClosureRef} (hr : r.id < s.machine.store.chains.size)
    (h : (s.machine.store.closure c).Fits args) :
    Resolves host args (.chain r) (s.extend r (.closure c)) result t ↔
      result = .ok (.enter c) ∧ t = s.extend r (.closure c) := by
  have henter : Resolves host args (.chain r) (s.extend r (.closure c)) (.ok (.enter c))
      (s.extend r (.closure c)) := by
    refine resolves_chain_iff.mpr ⟨some (.closure c), ?_⟩
    rw [← State.newest, newest_extend_closure hr]
    exact selects_cons.mpr (.inl ⟨resolves_closure_of_fits h, rfl, rfl⟩)
  constructor
  · exact fun hresolves => hresolves.unique henter
  · rintro ⟨rfl, rfl⟩
    exact henter

theorem selects_extend_of_not_fits {c : ClosureRef} (hr : r.id < s.machine.store.chains.size)
    (h : ¬ (s.machine.store.closure c).Fits args) :
    Selects host args ((s.extend r (.closure c)).newest r) (s.extend r (.closure c)) who result t ↔
      Selects host args (s.newest r) (s.extend r (.closure c)) who result t := by
  rw [newest_extend_closure hr]
  exact selects_cons_of_mismatch (resolves_closure_of_not_fits h)

/-- A chain that is added to another one is dispatched first. -/
theorem resolves_extend_chain_iff {g : ChainRef} (hr : r.id < s.machine.store.chains.size)
    (hg : g ≠ r) : Resolves host args (.chain r) (s.extend r (.chain g)) result t ↔
      (Resolves host args (.chain g) (s.extend r (.chain g)) result t ∧
        Dispatch.failure? result = none) ∨
        ∃ why u result',
          Resolves host args (.chain g) (s.extend r (.chain g)) (.ok (.settled (.failed why))) u ∧
          (∃ who, Selects host args (s.newest r) u who result' t) ∧
          result = why.before result' := by
  have hnewest := newest_extend_chain hr hg
  have hadded : ∀ {result t}, Resolves host args (.chain g) (s.extend r (.chain g)) result t ↔
      ∃ who, Selects host args (s.newest g) (s.extend r (.chain g)) who result t := by
    intro result t
    rw [resolves_chain_iff, ← State.newest, State.newest_extend_of_ne hg]
  rw [resolves_chain_iff, ← State.newest, hnewest]
  simp only [selects_append, hadded]
  constructor
  · rintro ⟨who, ⟨hselects, hnone⟩ | ⟨why, u, result', hfails, hselects, rfl⟩⟩
    · exact .inl ⟨⟨who, hselects⟩, hnone⟩
    · exact .inr ⟨why, u, result', ⟨none, hfails⟩, ⟨who, hselects⟩, rfl⟩
  · rintro (⟨⟨who, hselects⟩, hnone⟩ | ⟨why, u, result', ⟨_, hfails⟩, ⟨who, hselects⟩, rfl⟩)
    · exact ⟨who, .inl ⟨hselects, hnone⟩⟩
    · cases hfails.eq_none
      exact ⟨who, .inr ⟨why, u, result', hfails, hselects, rfl⟩⟩

theorem selects_extend_chain_iff {g : ChainRef} (hr : r.id < s.machine.store.chains.size)
    (hg : g ≠ r) (hcore : s.CoreChain r) (hcore' : s.CoreChain g)
    (hwho : ∀ f ∈ who, ¬ f.IsCall s.machine.store) :
    Selects host args ((s.extend r (.chain g)).newest r) (s.extend r (.chain g)) who result u ↔
      ∃ t, u = t.extend r (.chain g) ∧
        ((Selects host args (s.newest g) s who result t ∧ Dispatch.failure? result = none) ∨
          ∃ why result', Selects host args (s.newest g) s none (.ok (.settled (.failed why))) s ∧
            Selects host args (s.newest r) s who result' t ∧ result = why.before result') := by
  have hboth : ∀ f ∈ s.newest g ++ s.newest r, s.machine.store.Core f :=
    List.forall_mem_append.mpr ⟨hcore', hcore⟩
  rw [newest_extend_chain hr hg, selects_extend_iff hboth hwho]
  refine exists_congr fun t => and_congr_right fun _ => ?_
  rw [selects_append]
  constructor
  · rintro (h | ⟨why, s', result', hfails, hselects, rfl⟩)
    · exact .inl h
    · cases hfails.eq_of_idle hcore' (Dispatch.idle_failed why)
      exact .inr ⟨why, result', hfails, hselects, rfl⟩
  · rintro (h | ⟨why, result', hfails, hselects, rfl⟩)
    · exact .inl h
    · exact .inr ⟨why, s, result', hfails, hselects, rfl⟩

end Core

/-- How a call chooses among the overloads of a chain. The overloads are tried from the newest one
on, and the first one that does not fail gives the result. Where all overloads are closures and
built-in natives, a choice or a failure changes nothing. A closure that is added to a chain is
entered with arguments that fit it; with all others the older overloads are tried as before, and
give the same result with the same effect unless it is the native `call` that answers. A chain that
is added to another one is tried first, and then the older overloads, with a missing implementation
outweighing a mismatch. -/
theorem overload_resolution (host : Host) (args : List Value) (s : State) (r : ChainRef) :
    (∀ result t, Resolves host args (.chain r) s result t ↔
      ∃ who, Selects host args (s.newest r) s who result t) ∧
    (s.CoreChain r → ∀ d t, Resolves host args (.chain r) s (.ok d) t → d.Idle → t = s) ∧
    (r.id < s.machine.store.chains.size → ∀ c s', s' = s.extend r (.closure c) →
      ((s.machine.store.closure c).Fits args → ∀ result t,
        Resolves host args (.chain r) s' result t ↔ result = .ok (.enter c) ∧ t = s') ∧
      (¬ (s.machine.store.closure c).Fits args →
        (∀ result t, Resolves host args (.chain r) s' result t ↔
          ∃ who, Selects host args (s.newest r) s' who result t) ∧
        (s.CoreChain r → ∀ who, (∀ f ∈ who, ¬ f.IsCall s.machine.store) → ∀ result t,
          Selects host args (s'.newest r) s' who result t ↔
            ∃ u, t = u.extend r (.closure c) ∧ Selects host args (s.newest r) s who result u))) ∧
    (r.id < s.machine.store.chains.size → ∀ g, g ≠ r → ∀ s', s' = s.extend r (.chain g) →
      (∀ result t, Resolves host args (.chain r) s' result t ↔
        (Resolves host args (.chain g) s' result t ∧ Dispatch.failure? result = none) ∨
          ∃ why u result', Resolves host args (.chain g) s' (.ok (.settled (.failed why))) u ∧
            (∃ who, Selects host args (s.newest r) u who result' t) ∧
            result = why.before result') ∧
      (s.CoreChain r → s.CoreChain g → ∀ who, (∀ f ∈ who, ¬ f.IsCall s.machine.store) →
        ∀ result t, Selects host args (s'.newest r) s' who result t ↔
          ∃ u, t = u.extend r (.chain g) ∧
            ((Selects host args (s.newest g) s who result u ∧ Dispatch.failure? result = none) ∨
              ∃ why result',
                Selects host args (s.newest g) s none (.ok (.settled (.failed why))) s ∧
                Selects host args (s.newest r) s who result' u ∧ result = why.before result'))) ∧
    s.extend r (.chain r) = s := by
  refine ⟨fun _ _ => resolves_chain_iff, fun hcore d t h hd => ?_, ?_, ?_, s.extend_self r⟩
  · obtain ⟨who, hselects⟩ := resolves_chain_iff.mp h
    exact hselects.eq_of_idle hcore hd
  · rintro hr c s' rfl
    refine ⟨fun hfits _ _ => resolves_extend_of_fits hr hfits, fun hfits => ⟨fun _ _ => ?_, ?_⟩⟩
    · exact resolves_chain_iff.trans (exists_congr fun _ => selects_extend_of_not_fits hr hfits)
    · intro hcore who hwho result t
      exact (selects_extend_of_not_fits hr hfits).trans (selects_extend_iff hcore hwho)
  · rintro hr g hg s' rfl
    refine ⟨fun _ _ => resolves_extend_chain_iff hr hg, ?_⟩
    intro hr' hg' who hwho result t
    exact selects_extend_chain_iff hr hg hr' hg' hwho

/-- A chain of sums of integers and of texts, another chain of a closure with one parameter, and a
closure for an integer and a text. -/
def State.sums : State where
  machine :=
    { program := ⟨#[]⟩
      globals := ⟨#[]⟩
      phase := .linking
      store := { Store.empty with
        natives := #[⟨"+", .builtin .addInt⟩, ⟨"+", .builtin .concatStr⟩]
        closures := #[⟨0, 2, 2, [.int, .str], []⟩, ⟨0, 1, 1, [.any], []⟩]
        chains := #[⟨"+", [.native ⟨0⟩, .native ⟨1⟩]⟩, ⟨"f", [.closure ⟨1⟩]⟩] } }
  context := .new

theorem overload_resolution_sums :
    State.sums.CoreChain ⟨0⟩ ∧ State.sums.CoreChain ⟨1⟩ ∧
    Resolves Host.none [.int 1, .str "x"] (.chain ⟨0⟩) (State.sums.extend ⟨0⟩ (.closure ⟨0⟩))
      (.ok (.enter ⟨0⟩)) (State.sums.extend ⟨0⟩ (.closure ⟨0⟩)) ∧
    Resolves Host.none [.int 1, .int 2] (.chain ⟨0⟩) (State.sums.extend ⟨0⟩ (.closure ⟨0⟩))
      (.ok (.settled (.ok (.int 3)))) (State.sums.extend ⟨0⟩ (.closure ⟨0⟩)) ∧
    Resolves Host.none [.null, .null] (.chain ⟨0⟩) (State.sums.extend ⟨0⟩ (.chain ⟨1⟩))
      (.ok (.settled (.failed .implMissing))) (State.sums.extend ⟨0⟩ (.chain ⟨1⟩)) := by
  have hsums : State.sums.CoreChain ⟨0⟩ := by
    intro f hf
    have hmem : f = .native ⟨1⟩ ∨ f = .native ⟨0⟩ := by
      simpa [State.newest, State.sums, Store.chain] using hf
    rcases hmem with rfl | rfl <;> exact ⟨_, rfl⟩
  have hother : State.sums.CoreChain ⟨1⟩ := by
    intro f hf
    obtain rfl : f = .closure ⟨1⟩ := by simpa [State.newest, State.sums, Store.chain] using hf
    trivial
  refine ⟨hsums, hother, ?_, ?_, ?_⟩
  · obtain ⟨-, -, hclosure, -⟩ := overload_resolution Host.none [.int 1, .str "x"] State.sums ⟨0⟩
    have hfits := (hclosure (by decide) ⟨0⟩ _ rfl).1 (Closure.accepts_iff.mp (by decide))
    exact (hfits _ _).mpr ⟨rfl, rfl⟩
  · obtain ⟨-, -, hclosure, -⟩ := overload_resolution Host.none [.int 1, .int 2] State.sums ⟨0⟩
    have holder := (hclosure (by decide) ⟨0⟩ _ rfl).2 (Closure.accepts_iff.not.mp (by decide))
    have hsplit : State.sums.newest ⟨0⟩ = [.native ⟨1⟩] ++ [.native ⟨0⟩] := rfl
    have hold : Selects Host.none [.int 1, .int 2] (State.sums.newest ⟨0⟩) State.sums
        (some (.native ⟨0⟩)) (.ok (.settled (.ok (.int 3)))) State.sums :=
      .answer hsplit (.cons (resolves_of_dispatch rfl) .nil) (resolves_of_dispatch rfl) rfl
    refine resolves_chain_iff.mpr ⟨some (.native ⟨0⟩), ?_⟩
    refine (holder.2 hsums _ ?_ _ _).mpr ⟨State.sums, rfl, hold⟩
    rintro f ⟨⟩ (hcode | _)
    cases hcode
  · obtain ⟨-, -, -, hchain, -⟩ := overload_resolution Host.none [.null, .null] State.sums ⟨0⟩
    have hcore := (hchain (by decide) ⟨1⟩ (by decide) _ rfl).2 hsums hother none (by rintro _ ⟨⟩)
    have hadded : Declines Host.none [.null, .null] (State.sums.newest ⟨1⟩) State.sums
        [.argsMismatch] State.sums := .cons (resolves_of_dispatch rfl) .nil
    have hold : Declines Host.none [.null, .null] (State.sums.newest ⟨0⟩) State.sums
        [.implMissing, .implMissing] State.sums :=
      .cons (resolves_of_dispatch rfl) (.cons (resolves_of_dispatch rfl) .nil)
    refine resolves_chain_iff.mpr ⟨none, (hcore _ _).mpr ⟨State.sums, rfl, .inr ?_⟩⟩
    exact ⟨_, _, .exhausted hadded, .exhausted hold, rfl⟩

/-- The native `call` in a chain of its own, and a closure of one parameter that returns 5. -/
def State.reentrant : State where
  machine :=
    { program := ⟨([⟨.pushInt, (5 : Int64)⟩, ⟨.ret, ()⟩] : List Instr).flatMap Instr.bytes
        |>.toArray⟩
      globals := ⟨#[]⟩
      phase := .linking
      store := { Store.empty with
        natives := #[⟨"call", .builtin .call⟩]
        closures := #[⟨0, 1, 1, [.any], []⟩]
        chains := #[⟨"call", [.native ⟨0⟩]⟩] } }
  context := .new

/-- The closure does not fit two arguments, but the native `call` comes back to the chain with one
of them. So the chain gives another result once the closure is added. -/
theorem overloads_reentered :
    State.reentrant.CoreChain ⟨0⟩ ∧
    ¬ (State.reentrant.machine.store.closure ⟨0⟩).Fits [.func (.chain ⟨0⟩), .int 1] ∧
    (∃ t, Resolves Host.none [.func (.chain ⟨0⟩), .int 1] (.chain ⟨0⟩) State.reentrant
      (.ok (.settled (.exception (.hash ⟨0⟩)))) t) ∧
    ∃ t, Resolves Host.none [.func (.chain ⟨0⟩), .int 1] (.chain ⟨0⟩)
      (State.reentrant.extend ⟨0⟩ (.closure ⟨0⟩)) (.ok (.settled (.ok (.int 5)))) t := by
  refine ⟨fun f hf => ?_, Closure.accepts_iff.not.mp (by decide), ?_, ?_⟩
  · obtain rfl : f = .native ⟨0⟩ := by
      simpa [State.newest, State.reentrant, Store.chain] using hf
    exact ⟨.call, rfl⟩
  · exact ⟨_, resolves_iff.mpr (Config.trace_path Host.none 8 _).reaches⟩
  · exact ⟨_, resolves_iff.mpr (Config.trace_path Host.none 20 _).reaches⟩

end StackVM
