import StackVM.Proofs.Machine.Phase.Lives

/-! # Fixed code

Only while linking does a patch change the code, and only in the operand of a global access, so the
code of a linked machine is fixed until more is loaded.
-/
namespace StackVM

/-- At this address a patch that is executed now writes the operand of a global access. -/
def Config.Patches (c : Config) (k : Nat) : Prop :=
  ∃ (target : UInt16) (site : Nat) (op : Opcode), c.Fetches ⟨.patch, target⟩ ∧
    target.toNat = site + 1 ∧ c.state.machine.program.byte? site = some op.toByte ∧
    op.takesGlobal = true ∧ (k = target.toNat ∨ k = target.toNat + 1)

theorem Config.step_code {host : Host} {c d : Config} (h : step host c = some d) :
    d.state.machine.program.size = c.state.machine.program.size ∧
      ∀ k, d.state.machine.program.byte? k ≠ c.state.machine.program.byte? k →
        c.state.machine.phase = .linking ∧ c.Patches k := by
  generalize hm : d.state.machine = m
  have halters := alters_of_step h
  rw [hm] at halters
  cases halters with
  | work _ hworked => simp [hworked.code.1]
  | link _ => split <;> simp
  | @patch target index q hfetches hphase hpatchable hwrite =>
    obtain ⟨hsize, hbytes⟩ := Program.writeWord_eq_ok hwrite
    refine ⟨hsize, fun k hk => ⟨hphase, ?_⟩⟩
    obtain ⟨site, op, hsite, hbyte, hglobal, -⟩ := Exec.patchable_iff.mp hpatchable
    refine ⟨target, site, op, hfetches, hsite, hbyte, hglobal, ?_⟩
    by_cases hlow : k = target.toNat
    · exact .inl hlow
    · right
      exact Classical.not_not.mp fun hhigh => hk (hbytes k hlow hhigh)

theorem Machine.program_startRun (m : Machine) : m.startRun.program = m.program := by
  unfold Machine.startRun
  split <;> rfl

theorem Machine.program_endRun (m : Machine) : m.endRun.program = m.program := by
  unfold Machine.endRun
  split <;> rfl

theorem Moment.Next.code {host : Host} {now later : Moment} {e : Event}
    (h : now.Next host e later) (he : e.isLoad = false) :
    later.machine.program = now.machine.program ∨
      ∃ ctx c d, now = .run ctx c ∧ later = .run ctx d ∧ Config.step host c = some d := by
  cases h with
  | load => cases he
  | define m native => exact .inl (m.worked_defineNative native).code.1
  | resolve => exact .inl rfl
  | check => exact .inl rfl
  | start m ctx entry => exact .inl m.program_startRun
  | step hstep => exact .inr ⟨_, _, _, rfl, rfl, hstep⟩
  | @finish ctx ctx' c exit s result m hresult hfinish =>
    obtain ⟨-, -, rfl⟩ := Config.control_of_result? hresult
    left
    rw [Machine.finish_machine hfinish]
    exact c.state.machine.program_endRun

theorem Moment.Next.step_code {host : Host} {now later : Moment} {e : Event}
    (h : now.Next host e later) (he : e.isLoad = false) :
    later.machine.program.size = now.machine.program.size ∧
      ∀ k, later.machine.program.byte? k ≠ now.machine.program.byte? k →
        now.machine.phase = .linking ∧ ∃ ctx c, now = .run ctx c ∧ c.Patches k := by
  rcases h.code he with hsame | ⟨ctx, c, d, rfl, rfl, hstep⟩
  · simp [hsame]
  · obtain ⟨hsize, hbytes⟩ := Config.step_code hstep
    refine ⟨hsize, fun k hk => ?_⟩
    obtain ⟨hphase, hpatches⟩ := hbytes k hk
    exact ⟨hphase, ctx, c, rfl, hpatches⟩

/-- The code of a linked machine stays as it is until more is loaded. -/
theorem Life.later_code {host : Host} {past : Past} {now later : Moment} (h : Life host past now)
    (hlinked : Linked past) (hlater : now.Later host later) :
    later.machine.program = now.machine.program := by
  suffices hend : ∃ past', Life host past' later ∧ Linked past' ∧
      later.machine.program = now.machine.program from hend.choose_spec.2.2
  induction hlater with
  | refl => exact ⟨past, h, hlinked, rfl⟩
  | tail _ hnext ih =>
    obtain ⟨e, he, hnext⟩ := hnext
    obtain ⟨past', hlife, hl, hcode⟩ := ih
    refine ⟨_, hlife.next hnext, (linked_cons he).mpr (.inr hl), ?_⟩
    rw [← hcode]
    apply Program.ext_byte?
    intro k
    apply Classical.not_not.mp
    intro hk
    have hlinking := ((hnext.step_code he).2 k hk).1
    exact hlife.phased.linking_iff.mp hlinking hl

theorem Life.steps {host : Host} {past : Past} {ctx : Context} {c d : Config} {cs : List Config}
    (h : Life host past (.run ctx c)) (htrace : c.Trace host cs d) :
    Life host ((cs.map fun x => (Moment.run ctx x, Event.step)).reverse ++ past) (.run ctx d) := by
  induction htrace generalizing past with
  | refl => exact h
  | cons hstep _ ih =>
    have hnext := ih (h.next (.step hstep))
    simpa using hnext

theorem Life.run {host : Host} {past : Past} {m m' : Machine} {ctx ctx' : Context}
    {fuel entry : Nat} {result : Except Fault Outcome} (h : Life host past (.rest m))
    (hrun : m.run host fuel ctx entry = some (result, m', ctx')) :
    ∃ past', Life host past' (.rest m') := by
  obtain ⟨cs, c, exit, s, htrace, hresult, hfinish⟩ := Machine.exists_runs_iff.mpr ⟨fuel, hrun⟩
  have hend := (h.next (.start m ctx entry)).steps htrace
  exact ⟨_, hend.next (.finish hresult hfinish)⟩

/-- Between operations a machine is linking or ready, and it is linking exactly as long as the end
of linking has not been executed since the last load. The size of the code changes by loading only.
A byte of it that changes otherwise is one of the two operand bytes of a global access; a patch
changes it, and the end of linking has not been executed since the last load. So from the end of
linking on the code is fixed until the next load. -/
theorem code_fixed_once_linked {host : Host} {past : Past} {now : Moment}
    (h : Life host past now) :
    (∀ m, now = .rest m →
      (m.phase = .linking ∨ m.phase = .ready) ∧ (m.phase = .linking ↔ ¬ Linked past)) ∧
    (∀ e later, now.Next host e later → e.isLoad = false →
      later.machine.program.size = now.machine.program.size ∧
      ∀ k, later.machine.program.byte? k ≠ now.machine.program.byte? k →
        ¬ Linked past ∧ ∃ ctx c, now = .run ctx c ∧ c.Patches k) ∧
    (Linked past → ∀ later, now.Later host later →
      later.machine.program = now.machine.program) := by
  have hphased := h.phased
  refine ⟨?_, ?_, fun hlinked _ hlater => h.later_code hlinked hlater⟩
  · rintro m rfl
    refine ⟨?_, hphased.linking_iff⟩
    by_cases hlinked : Linked past
    · exact .inr (hphased.linked hlinked)
    · exact .inl (hphased.unlinked hlinked)
  · intro e later hnext he
    obtain ⟨hsize, hbytes⟩ := hnext.step_code he
    refine ⟨hsize, fun k hk => ?_⟩
    obtain ⟨hphase, hpatches⟩ := hbytes k hk
    exact ⟨hphased.linking_iff.mp hphase, hpatches⟩

/-- Code that links its own access to a global and declares linking done. -/
def Program.selfLinking : Array UInt8 :=
  (([⟨.pushText, "x"⟩, ⟨.resolveGlobal, ()⟩, ⟨.patch, (9 : UInt16)⟩, ⟨.initDone, ()⟩,
    ⟨.globalDefined, (65535 : UInt16)⟩, ⟨.halt, ()⟩] : List Instr).flatMap Instr.bytes).toArray

def Machine.selfLinking : Machine := (Machine.init []).load Program.selfLinking

/-- Its run, where the next step is the patch. -/
def Config.patching : Config := (path Host.none 2 (Machine.selfLinking.runConfig .new 0)).2

theorem Life.selfLinking : ∃ past, Life Host.none past (.rest Machine.selfLinking) :=
  ⟨_, (Life.init []).next (.load _ Program.selfLinking)⟩

theorem code_fixed_once_linked_selfLinking :
    (∃ past d, Life Host.none past (.run .new Config.patching) ∧
      Config.step Host.none Config.patching = some d ∧
      Config.patching.state.machine.program.readWord? 9 = some 65535 ∧
      d.state.machine.program.readWord? 9 = some 24 ∧
      ¬ Linked past ∧ Config.patching.Patches 9) ∧
    ∃ past m, Life Host.none past (.rest m) ∧ Linked past ∧ m.phase = .ready ∧
      m.program.readWord? 9 = some 24 ∧
      ∀ later, (Moment.rest m).Later Host.none later → later.machine.program = m.program := by
  obtain ⟨past, hloaded⟩ := Life.selfLinking
  constructor
  · have hlife := (hloaded.next (.start _ .new 0)).steps (Config.trace_path Host.none 2 _)
    have hstep : (Config.step Host.none Config.patching).map
        (fun d => (d.state.machine.program.readWord? 9, d.state.machine.program.byte? 9)) =
          some (some 24, some 24) := by decide +kernel
    obtain ⟨d, hd, hbytes⟩ := Option.map_eq_some_iff.mp hstep
    obtain ⟨hword, hbyte⟩ := Prod.mk.inj hbytes
    have hchanged : d.state.machine.program.byte? 9 ≠
        Config.patching.state.machine.program.byte? 9 := by
      rw [hbyte]
      decide +kernel
    obtain ⟨-, hcode, -⟩ := code_fixed_once_linked hlife
    obtain ⟨hlinked, _, _, hnow, hpatches⟩ := (hcode _ _ (.step hd) rfl).2 9 hchanged
    cases hnow
    exact ⟨_, d, hlife, hd, by decide +kernel, hword, hlinked, hpatches⟩
  · have hrun : (Machine.selfLinking.run Host.none 7 .new 0).map
        (fun out => (out.2.1.phase, out.2.1.program.readWord? 9)) = some (.ready, some 24) := by
      decide +kernel
    obtain ⟨⟨result, m, ctx⟩, hout, hm⟩ := Option.map_eq_some_iff.mp hrun
    have hphase : m.phase = .ready := congrArg Prod.fst hm
    have hword : m.program.readWord? 9 = some 24 := congrArg Prod.snd hm
    obtain ⟨past', hlife⟩ := hloaded.run hout
    obtain ⟨hrest, -, hfixed⟩ := code_fixed_once_linked hlife
    have hlinked : Linked past' := by
      apply Classical.not_not.mp
      intro hnot
      have hlinking := (hrest m rfl).2.mpr hnot
      simp [hphase] at hlinking
    exact ⟨past', m, hlife, hlinked, hphase, hword, hfixed hlinked⟩

end StackVM
