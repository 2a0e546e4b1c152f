import StackVM.Proofs.Verify.Soundness.Steps

/-! # Soundness of verification

A run of a verified program stays in its code. The faults that blame the code come down to two:
running off the end, and a link whose integer is no index.
-/
namespace StackVM

/-- A new machine with natives of the host and one program. -/
def Machine.setUp (argv : List String) (natives : List Native) (p : Program) : Machine :=
  (natives.foldl (fun m native => (m.defineNative native).2) (init argv)).load p.bytes

/-- The first configuration of a program's run. -/
def Program.start (p : Program) (argv : List String) (natives : List Native) : Config :=
  (Machine.setUp argv natives p).runConfig .new 0

theorem Machine.skeleton_foldl {α : Type} {register : Machine → α → Machine} {ctx : Context}
    (h : ∀ m x, (State.mk (register m x) ctx).skeleton = (State.mk m ctx).skeleton) (xs : List α)
    (m : Machine) : (State.mk (xs.foldl register m) ctx).skeleton = (State.mk m ctx).skeleton := by
  induction xs generalizing m with
  | nil => rfl
  | cons x xs ih => exact (ih _).trans (h m x)

theorem Machine.skeleton_init (argv : List String) (ctx : Context) :
    (State.mk (init argv) ctx).skeleton = ⟨.empty, #[], ctx.frames, ctx.handlers⟩ := by
  unfold init
  dsimp only
  rw [skeleton_foldl fun m entry => m.skeleton_defineNative ctx _]
  rfl

theorem Machine.skeleton_load {m : Machine} {ctx : Context} (h : m.program = .empty) (p : Program) :
    (State.mk (m.load p.bytes) ctx).skeleton = { (State.mk m ctx).skeleton with program := p } := by
  have hload : m.program.append p.bytes = p := by
    rw [h]
    simp [Program.append, Program.empty]
  simp only [State.skeleton, Machine.load, hload]

theorem Machine.skeleton_startRun (m : Machine) (ctx : Context) :
    (State.mk m.startRun ctx).skeleton = (State.mk m ctx).skeleton := by
  unfold startRun
  split <;> rfl

theorem Program.skeleton_start (p : Program) (argv : List String) (natives : List Native) :
    (p.start argv natives).state.skeleton = ⟨p, #[], [], []⟩ := by
  have hskel := Machine.skeleton_foldl (fun m native => m.skeleton_defineNative .new native)
    natives (Machine.init argv)
  rw [Machine.skeleton_init] at hskel
  have hempty := congrArg Skeleton.program hskel
  calc (p.start argv natives).state.skeleton
    _ = (State.mk (Machine.setUp argv natives p) .new).skeleton := Machine.skeleton_startRun _ _
    _ = _ := Machine.skeleton_load hempty p
    _ = ⟨p, #[], [], []⟩ := by rw [hskel]; rfl

namespace Config
variable {p : Program} {l : List (Nat × Instr)} {host : Host} {argv : List String}
  {natives : List Native}

theorem start_sound (hv : Verified p l) (known : Fault → Prop) :
    Sound p l known (p.start argv natives) := by
  refine ⟨?_, Or.inl hv.zero_mem, ?_⟩
  · rw [p.skeleton_start]
    refine ⟨.refl p l, ?_, ?_, ?_⟩
    · intro c hc
      simp at hc
    · intro f hf
      cases hf
    · intro h hh
      cases hh
  · intro w hw
    cases hw

theorem Reaches.sound (hv : Verified p l) (hhost : host.RelaysFaults) {c : Config}
    (hc : (p.start argv natives).Reaches host c) :
    Sound p l (Fault.Excused p host (p.start argv natives)) c :=
  hc.induct (start_sound hv _) fun _ _ hm h hstep => step_sound hv hhost hm h hstep

/-- The code in memory is that of `p` up to the operands of global accesses, and all runs in
progress stand in it. -/
structure Within (p : Program) (l : List (Nat × Instr)) (c : Config) : Prop where
  decodes : ∃ l', c.state.machine.program.decodeAll = .ok l' ∧ List.Forall₂ SameUpToGlobal l l'
  bytes : Relinked p l c.state.machine.program
  pointers : ∀ ip ∈ c.pointers, ip ∈ l.map Prod.fst ∨ ip = p.size

theorem Sound.within {known : Fault → Prop} {c : Config} (h : Sound p l known c)
    (hv : Verified p l) : c.Within p l := by
  refine ⟨?_, h.state.code, fun ip hip => h.pointers hip⟩
  obtain ⟨l', hl', hsame⟩ := h.state.code.listing hv.listing
  exact ⟨l', Program.decodeAll_eq_ok_iff_listing.mpr hl', hsame⟩

theorem Sound.excused {known : Fault → Prop} {c : Config} (h : Sound p l known c) {f : Fault}
    (hf : c.control = .exited (.error f)) : known f := by
  have hcontrol := h.control
  rw [hf] at hcontrol
  exact hcontrol

end Config

/-- A run of a verified program stays in its code, with whatever arguments it is started and
whatever natives the host adds, as long as these make up no faults. Its faults are excused. -/
theorem verify_sound {p : Program} {host : Host} (hp : p.verify = []) (hhost : host.RelaysFaults)
    (argv : List String) (natives : List Native) :
    ∃ l, p.decodeAll = .ok l ∧
      (∀ c, (p.start argv natives).Reaches host c → c.Within p l ∧
        ∀ f, c.control = .exited (.error f) → f.Excused p host (p.start argv natives)) ∧
      ∀ fuel f m ctx,
        (Machine.setUp argv natives p).run host fuel .new 0 = some (.error f, m, ctx) →
          f.Excused p host (p.start argv natives) := by
  obtain ⟨l, hv⟩ := verified_of_verify hp
  refine ⟨l, Program.decodeAll_eq_ok_iff_listing.mpr hv.listing, ?_, ?_⟩
  · intro c hc
    have hsound := hc.sound hv hhost
    exact ⟨hsound.within hv, fun f => hsound.excused⟩
  · intro fuel f m ctx hrun
    obtain ⟨c, hc, hcontrol⟩ := Machine.exists_reaches_of_run_error hrun
    exact (hc.sound hv hhost).excused hcontrol

/-- A verified program that links with an integer that is no index. -/
def Program.misfit : Program :=
  ⟨([⟨.pushInt, (70000 : Int64)⟩, ⟨.patch, (13 : UInt16)⟩, ⟨.fetchGlobal, (0 : UInt16)⟩,
    ⟨.halt, ()⟩] : List Instr).flatMap Instr.bytes |>.toArray⟩

theorem Program.verify_misfit : misfit.verify = [] := by
  have hdecode : misfit.decodeAll = .ok [(0, ⟨.pushInt, (70000 : Int64)⟩),
      (9, ⟨.patch, (13 : UInt16)⟩), (12, ⟨.fetchGlobal, (0 : UInt16)⟩), (15, ⟨.halt, ()⟩)] := by
    refine decodeAll_eq_ok_iff.mpr ⟨?_, ?_⟩ <;> decide
  unfold verify
  rw [hdecode]
  decide

theorem Probe.tcall_relays : Host.RelaysFaults fun _ => Probe.tcall.body := by
  intro key run hrun s args
  cases hrun
  cases args with
  | nil => trivial
  | cons callee args =>
    intro reply s
    cases reply with
    | error f => exact Or.inr rfl
    | ok result => exact fun _ => trivial

theorem verify_sound_misfit :
    Program.misfit.verify = [] ∧ (Host.RelaysFaults fun _ => Probe.tcall.body) ∧
    ∃ l, Program.misfit.decodeAll = .ok l ∧
      ∀ c, (Program.misfit.start ["script"] [Probe.tcall.native "tcall"]).Reaches
        (fun _ => Probe.tcall.body) c → c.Within Program.misfit l := by
  refine ⟨Program.verify_misfit, Probe.tcall_relays, ?_⟩
  obtain ⟨l, hl, hrun, -⟩ := verify_sound Program.verify_misfit Probe.tcall_relays ["script"]
    [Probe.tcall.native "tcall"]
  exact ⟨l, hl, fun c hc => (hrun c hc).1⟩

end StackVM
