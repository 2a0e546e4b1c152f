import StackVM.Proofs.Machine.Activation.Supply

/-! # Closures and the frames that are made for them

A closure can be got from the machine and the contexts of its host only by following references,
and these lead to closures that fit the code. A closure that has accepted its arguments has a
variable for each of them, and the code has a byte at its entry.
-/
namespace StackVM

/-- The variables of a call of a closure are the arguments in their order, as many as the closure
has parameters, and then undefined, as many as the closure asks for. -/
structure Closure.Receives (c : Closure) (args : List Value) (slots : Array Value) : Prop where
  count : args.length = c.params.toNat
  size : slots.size = c.slots.toNat
  given : ∀ (n : Nat) (h : n < args.length), slots[n]? = some args[n]
  rest : ∀ n, args.length ≤ n → n < slots.size → slots[n]? = some .undef

theorem Closure.receives_initialLocals {c : Closure} {args : List Value}
    (hslots : c.params ≤ c.slots) (haccepts : c.accepts args = true) :
    c.Receives args (initialLocals args c.slots) := by
  have hcount : args.length = c.params.toNat := by
    unfold accepts at haccepts
    exact eq_of_beq (Bool.and_eq_true_iff.mp haccepts).1
  have hle : args.length ≤ c.slots.toNat := hcount ▸ UInt8.le_iff_toNat_le.mp hslots
  have hall : initialLocals args c.slots =
      (args ++ List.replicate (c.slots.toNat - args.length) Value.undef).toArray := by
    unfold initialLocals
    rw [List.take_of_length_le (by simp [hle])]
  rw [hall]
  refine ⟨hcount, by simp [hle], fun n hn => ?_, fun n hn hsize => ?_⟩
  · rw [List.getElem?_toArray, List.getElem?_append_left hn, List.getElem?_eq_getElem hn]
  · rw [List.getElem?_toArray, List.getElem?_append_right hn, List.getElem?_replicate, if_pos]
    simpa [hle] using Nat.sub_lt_sub_right hn hsize

theorem Machine.slots_newLocals (m : Machine) (c : Closure) (args : List Value) :
    (m.newLocals c args).2.store.slots (m.newLocals c args).1 = initialLocals args c.slots := by
  simp [newLocals, Store.newLocals, Store.slots]

theorem Program.decodeAt_inside {p : Program} {pos : Nat} {e : CodeError} (hpos : pos < p.size)
    (h : p.decodeAt pos = .error e) : (Fault.ofDecode pos e).cause ≠ .ipOutOfRange := by
  have hbyte : p.bytes[pos]? = some p.bytes[pos] := Array.getElem?_eq_getElem hpos
  unfold decodeAt Instr.decode at h
  rw [hbyte] at h
  dsimp only at h
  split at h
  next e' hopcode =>
    cases h
    unfold Instr.opcodeAt at hopcode
    split at hopcode <;> cases hopcode
    exact nofun
  next op hopcode => split at h <;> cases h <;> exact nofun

/-- The next step enters the closure with the arguments of a call, in this frame. -/
structure Config.Activates (past : Past) (c : Config) (r : ClosureRef) (args : List Value)
    (g : Frame) (d : Config) : Prop where
  chosen : c.control = .dispatched (.ok (.enter r))
  supplied : past.Supplies c.state args c.pending
  receives : (c.state.machine.store.closure r).Receives args
    (d.state.machine.store.slots g.locals)
  starts : ∃ base, d.control = .run base (c.state.machine.store.closure r).entry
  /-- The first fetch can fail, but not because there is nothing to fetch. -/
  fetches : ∀ e, d.state.machine.program.decodeAt (c.state.machine.store.closure r).entry =
    .error e → (Fault.ofDecode (c.state.machine.store.closure r).entry e).cause ≠ .ipOutOfRange

namespace Config
variable {past : Past} {d : Config} {s : State} {p : List Pending} {args : List Value}
  {r : ClosureRef} {g : Frame}

/-- A closure that a call instruction or the native `call` enters gets the arguments of the call. -/
theorem opens_with (hsupplies : past.Supplies s args p)
    (hstep : step Host.none ⟨.dispatched (.ok (.enter r)), p, s⟩ = some d)
    (hframes : d.state.context.frames = g :: s.context.frames) :
    d.state.machine.store.slots g.locals =
        initialLocals args (s.machine.store.closure r).slots ∧
      ∃ base, d.control = .run base (s.machine.store.closure r).entry := by
  cases hsupplies with
  | @instruction _ base pos next rest below m callee _ _ hcalling =>
    cases hcalling
    by_cases hroom : below.depth < Capacity.frames
    · simp only [step, deliver, finishCall, enter_calling hroom, proceed] at hstep
      cases hstep
      cases hframes
      exact ⟨m.slots_newLocals _ _, base, rfl⟩
    · simp only [step, deliver, finishCall, enter_crowded hroom, proceed] at hstep
      cases hstep
      exact absurd hframes.symm (List.cons_ne_self _ _)
  | search =>
    cases hstep
    exact absurd hframes.symm (List.cons_ne_self _ _)
  | @native f _ rest =>
    by_cases hroom : s.context.depth < Capacity.frames
    · obtain ⟨m, ctx⟩ := s
      simp only [step, deliver, runClosure, Exec.pushFrame_apply m _ args ctx _ _ _ hroom] at hstep
      cases hstep
      cases hframes
      exact ⟨m.slots_newLocals _ _, _, rfl⟩
    · simp only [step, deliver, runClosure, pushFrame_eq_error hroom] at hstep
      cases hstep
      exact absurd hframes.symm (List.cons_ne_self _ _)

end Config

/-- What holds of closures and of the frames that are made for them at a moment. -/
structure Moment.FitsClosures (past : Past) (now : Moment) : Prop where
  /-- A closure that can be got in any way exists, has a type for each parameter and a variable for
  each argument, and begins inside the code. -/
  closures : ∀ r, now.Offers past (.func (.closure r)) →
    ∃ c, now.machine.store.closures[r.id]? = some c ∧ c.Formed now.machine.program.size
  /-- Every frame is made for a closure that is entered with the arguments of a call. -/
  frames : ∀ ctx c g d, now = .run ctx c → Config.step Host.none c = some d →
    d.state.context.frames = g :: c.state.context.frames →
    ∃ r args, c.Activates past r args g d

/-- With the built-in natives, closures fit the code and get what they are called with at every
moment of a life. -/
theorem closures_fit_calls {past : Past} {now : Moment} (h : Life Host.none past now)
    (hown : Past.OwnContexts past) : now.FitsClosures past := by
  have hcoherent := h.coherent Host.none_honest hown
  constructor
  · intro r hoffers
    have hr : r.id < now.machine.store.closures.size := hcoherent.live_of_offers hoffers
    have hfound : now.machine.store.closures[r.id]? = some now.machine.store.closures[r.id] :=
      Array.getElem?_eq_getElem hr
    exact ⟨_, hfound, hcoherent.machine.store.formed _ (Array.mem_of_getElem? hfound)⟩
  · rintro ctx c g d rfl hstep hframes
    obtain ⟨r, hchosen, -⟩ := (Config.varies_of_step hstep).entered hframes
    have hserves := h.serves.2
    have hconfig := hcoherent.config ctx c rfl
    obtain ⟨control, p, s⟩ := c
    cases hchosen
    obtain ⟨args, hsupplies, haccepts⟩ := hserves
    have hlive : (Function.closure r).Live s.machine.store := hconfig.control _ rfl
    have hformed := hconfig.state.machine.store.closure_formed hlive
    obtain ⟨hslots, hstarts⟩ := Config.opens_with hsupplies hstep hframes
    refine ⟨r, args, rfl, hsupplies, ?_, hstarts, fun e he => ?_⟩
    · rw [hslots]
      exact Closure.receives_initialLocals hformed.slots haccepts
    · refine Program.decodeAt_inside ?_ he
      rw [(Config.step_code hstep).1]
      exact hformed.entry

/-- Code that adds a closure to the overloads of `-`, and has the native `call` call these. -/
def Program.handedOn : Array UInt8 :=
  (([⟨.fetchGlobal, (4 : UInt16)⟩, ⟨.fetchGlobal, (8 : UInt16)⟩, ⟨.makeClosure, ⟨30, 2, 3⟩⟩,
    ⟨.defGlobalFun, (15 : UInt16)⟩, ⟨.fetchGlobal, (15 : UInt16)⟩, ⟨.pushInt, (3 : Int64)⟩,
    ⟨.pushInt, (4 : Int64)⟩, ⟨.fetchGlobal, (23 : UInt16)⟩, ⟨.call, (3 : UInt8)⟩, ⟨.halt, ()⟩,
    ⟨.fetchLocal, (0 : UInt8)⟩, ⟨.ret, ()⟩] : List Instr).flatMap Instr.bytes).toArray

/-- The points of its run. -/
def Config.handedOn (n : Nat) : Config :=
  (path Host.none n (((Machine.init []).load Program.handedOn).runConfig .new 0)).2

theorem closures_fit_calls_handedOn :
    ∃ past args g, Life Host.none past (.run .new (.handedOn 14)) ∧ Past.OwnContexts past ∧
      (Moment.run .new (.handedOn 14)).Offers past (.func (.closure ⟨0⟩)) ∧
      (Moment.run .new (.handedOn 14)).FitsClosures past ∧
      (Config.handedOn 14).Activates past ⟨0⟩ args g (.handedOn 15) ∧
      (Config.handedOn 15).state.machine.store.slots g.locals = #[.int 3, .int 4, .undef] := by
  have hloaded : Life Host.none _ (.rest ((Machine.init []).load Program.handedOn)) :=
    (Life.init []).next (.load _ Program.handedOn)
  obtain ⟨past, hlife, hown⟩ := hloaded.reached trivial 0 14
  have hpoints :
      (Config.handedOn 14).state.machine.globals.slots[15]? =
        some ("-", .func (.chain ⟨1⟩)) ∧
      .closure ⟨0⟩ ∈ ((Config.handedOn 14).state.machine.store.chain ⟨1⟩).overloads ∧
      (Config.handedOn 14).control = .dispatched (.ok (.enter ⟨0⟩)) ∧
      (Config.handedOn 14).state.context.frames = [] ∧
      (Config.step Host.none (.handedOn 14)).isSome = true ∧
      (Config.handedOn 15).state.context.frames = [⟨41, 4, ⟨0⟩, []⟩] ∧
      (Config.handedOn 15).state.machine.store.slots ⟨0⟩ = #[.int 3, .int 4, .undef] := by
    decide +kernel
  obtain ⟨hglobal, hmember, hchosen, hpushed, hsome, hopened, hslots⟩ := hpoints
  have hoffers : (Moment.run .new (.handedOn 14)).Offers past (.func (.closure ⟨0⟩)) :=
    ⟨_, .global (Array.mem_of_getElem? hglobal), .single (.overload hmember)⟩
  have hfits : (Moment.run .new (.handedOn 14)).FitsClosures past := closures_fit_calls hlife hown
  have hframes : (Config.handedOn 15).state.context.frames =
      ⟨41, 4, ⟨0⟩, []⟩ :: (Config.handedOn 14).state.context.frames := by
    rw [hopened, hpushed]
  obtain ⟨r, args, hactivates⟩ := hfits.frames _ _ _ _ rfl (Config.step_path hsome) hframes
  cases hchosen.symm.trans hactivates.chosen
  exact ⟨past, args, _, hlife, hown, hoffers, hfits, hactivates, hslots⟩

end StackVM
