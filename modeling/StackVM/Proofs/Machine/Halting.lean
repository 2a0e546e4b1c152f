import StackVM.Proofs.Machine.Bounded
import StackVM.Proofs.Machine.Work.Steps

/-! # What a finished run leaves

A run that lets an exception escape leaves the frames and handlers that it found. One that halts
leaves the handlers that it found, too, but of the frames it takes none away: those of the calls in
which it halts stay in the context, under the next run.
-/
namespace StackVM

theorem Effect.halts {base : Base} {op : Opcode} {n : Nat} {e : Exit} {c c' : Context}
    {control : Control} (h : Effect base op n c control c') (houter : base.nested = false)
    (hcontrol : control = .exited (.ok e)) (hraised : ∀ v, e ≠ .raised v) :
    op = .halt ∧ c'.frames = c.frames := by
  cases h with
  | halt _ htrade => exact ⟨rfl, htrade.frames⟩
  | leave _ _ hnested => simp [houter] at hnested
  | @escape _ _ v =>
    cases hcontrol
    exact absurd rfl (hraised v)
  | trade | install | uninstall | enter | ret | caught | fault => cases hcontrol

namespace Config
variable {host : Host} {before : Context} {base : Base} {c d : Config}

theorem Moves.halts {fs : List Frame} {e : Exit} (h : Moves c d) (houter : base.nested = false)
    (hlayers : c.Layers [] (Layer [] base fs before) []) (hpending : d.pending = [])
    (hcontrol : d.control = .exited (.ok e)) (hraised : ∀ v, e ≠ .raised v) :
    c.pending = [] ∧ c.Fetches ⟨.halt, ()⟩ ∧
      d.state.context.frames = c.state.context.frames := by
  cases h with
  | @fetch b ip next i control p s s' hdecode heffect =>
    dsimp only at hpending
    subst hpending
    obtain ⟨rfl, -⟩ := hlayers.performs (.fetch hdecode)
    obtain ⟨hop, hframes⟩ := heffect.halts houter hcontrol hraised
    obtain ⟨op, x⟩ := i
    cases hop
    exact ⟨rfl, ⟨_, ip, next, rfl, hdecode⟩, hframes⟩
  | @finish result b _ _ _ _ _ p _ _ heffect =>
    dsimp only at hpending
    subst hpending
    obtain ⟨rfl, -⟩ := hlayers.performs .finish
    cases (heffect.halts houter hcontrol hraised).1
  | stuck | invoke | start => cases hcontrol
  | choose _ hchoosing | answer _ _ hchoosing | close _ hchoosing =>
    dsimp only at hcontrol
    subst hcontrol
    exact hchoosing.elim

end Config

/-- A run leaves the handlers that it found, if it ends without a fault, and if an exception escapes
from it, the frames that it found. If it halts, its last instruction is a halt of the run itself,
and it leaves the frames that are there: those it found, with those of the calls that it halts in on
top of them. So it leaves the frames that it found just if it halts in none of its own calls. -/
theorem run_leaves {host : Host} {m m' : Machine} {before after : Context} {entry : Nat}
    {cs : List Config} {outcome : Outcome} (hbefore : before.Reachable host)
    (hruns : m.Runs host before entry cs (.ok outcome) m' after)
    (hcalm : ∀ x ∈ cs, ¬ x.Resets host) :
    after.handlers = before.handlers ∧ before.frames <:+ after.frames ∧
    (∀ v, outcome = .exception v → after.frames = before.frames) ∧
    ∀ v, outcome = .ok v → ∃ xs x, cs = xs ++ [x] ∧ x.pending = [] ∧ x.Fetches ⟨.halt, ()⟩ ∧
      after.frames = x.state.context.frames ∧
      (after.frames = before.frames ↔ x.state.context.depth = before.depth) := by
  obtain ⟨c, exit, s, htrace, hresult, hfinish⟩ := hruns
  have hstart := Config.Begins.outer m before entry
  have hcs : ∀ x ∈ cs, ¬ x.Resets host ∧ ¬ x.Ended [] := fun x hx =>
    ⟨hcalm x hx, htrace.not_ended hx⟩
  obtain ⟨fs, hfloor, -, hlayers⟩ := hstart.layers hbefore.sp_le htrace hcs
  obtain ⟨hhandlers, hraised⟩ := Config.Begins.finish hfloor hlayers hresult hfinish
  obtain ⟨hcontrol, hpending, rfl⟩ := Config.control_of_result? hresult
  obtain ⟨-, hframes, -⟩ := Machine.finish_context hfinish
  have hsuffix : before.frames <:+ after.frames := hframes ▸ (hlayers.suffix hfloor).1
  refine ⟨hhandlers, hsuffix, hraised, ?_⟩
  rintro v rfl
  have hcs_ne : cs ≠ [] := by
    rintro rfl
    cases htrace
    cases hcontrol
  obtain ⟨xs, x, rfl, hfirst, hlast⟩ := htrace.exists_last hcs_ne
  obtain ⟨fs', hfloor', hsp, hlayers'⟩ := hstart.layers hbefore.sp_le hfirst fun y hy =>
    hcs y (List.mem_append_left _ hy)
  obtain ⟨e, rfl, hhalted⟩ : ∃ e, exit = .ok e ∧ ∀ w, e ≠ .raised w := by
    cases exit with
    | error f => cases hfinish
    | ok e =>
      refine ⟨e, rfl, ?_⟩
      rintro w rfl
      cases hfinish
  have hmoves := Config.moves_of_step hlast (hcalm x (by simp)) hsp
  obtain ⟨hx, hfetches, hsame⟩ := hmoves.halts rfl hlayers' hpending hcontrol hhalted
  rw [hsame] at hframes
  refine ⟨xs, x, rfl, hx, hfetches, hframes, ?_⟩
  rw [← show after.depth = x.state.context.depth by rw [Context.depth, hframes]; rfl]
  constructor
  · intro hall
    rw [Context.depth, hall]
    rfl
  · intro hdepth
    exact (hsuffix.eq_of_length hdepth.symm).symm

/-- A run that halts where it started leaves what it found, here a frame and a handler of an older
run. -/
theorem run_leaves_leftover :
    Context.leftover.Reachable Host.none ∧
    ∃ cs m' after, Machine.sample.Runs Host.none .leftover 0 cs (.ok (.ok (.bool true))) m' after ∧
      (∀ x ∈ cs, ¬ x.Resets Host.none) ∧ after.frames = Context.leftover.frames ∧
      after.handlers = Context.leftover.handlers := by
  have hcalm : ∀ x ∈ (Config.path Host.none 11 (Machine.sample.runConfig .leftover 0)).1,
      ¬ x.Resets Host.none := fun x hx => (Config.calm_of_path (by decide) [] x hx).1
  have hlast : ((Config.path Host.none 11 (Machine.sample.runConfig .leftover 0)).1.getLast?.map
      (·.state.context.depth)) = some 1 := by decide
  have hout : ((Config.path Host.none 11 (Machine.sample.runConfig .leftover 0)).2.result?.map
      fun out => Machine.finish 1 out.1 out.2).map (·.1) = some (.ok (.ok (.bool true))) := by
    decide
  obtain ⟨⟨result, m', after⟩, hfinish, rfl⟩ := Option.map_eq_some_iff.mp hout
  obtain ⟨⟨exit, s⟩, hresult, hfinish⟩ := Option.map_eq_some_iff.mp hfinish
  have hruns : Machine.sample.Runs Host.none .leftover 0
      (Config.path Host.none 11 (Machine.sample.runConfig .leftover 0)).1
      (.ok (.ok (.bool true))) m' after :=
    ⟨_, exit, s, Config.trace_path Host.none 11 _, hresult, hfinish⟩
  obtain ⟨hhandlers, -, -, hhalted⟩ := run_leaves Context.reachable_leftover hruns hcalm
  obtain ⟨xs, x, hcs, -, -, -, hframes⟩ := hhalted _ rfl
  rw [hcs, List.getLast?_concat] at hlast
  exact ⟨Context.reachable_leftover, _, m', after, hruns, hcalm,
    hframes.mpr (Option.some.inj hlast), hhandlers⟩

/-- Code that halts in a call, and from 21 code that reads a local variable. -/
def Machine.leaving : Machine := (Machine.init []).load
  (([⟨.makeClosure, (⟨3, 0, 1⟩ : EntryPoint)⟩, ⟨.call, (0 : UInt8)⟩, ⟨.halt, ()⟩,
    ⟨.pushInt, (7 : Int64)⟩, ⟨.storeLocal, (0 : UInt8)⟩, ⟨.pushTrue, ()⟩, ⟨.halt, ()⟩,
    ⟨.fetchLocal, (0 : UInt8)⟩, ⟨.halt, ()⟩] : List Instr).flatMap Instr.bytes).toArray

/-- A run on a new context halts and leaves the frame of a call behind. The next run on that context
reads the local variables of the call, where on a new context it would find no frame. -/
theorem halt_leaves_frame :
    ∃ cs m' after, Machine.leaving.Runs Host.none .new 0 cs (.ok (.ok (.bool true))) m' after ∧
      (∀ x ∈ cs, ¬ x.Resets Host.none) ∧ Context.new.depth = 0 ∧ after.depth = 1 ∧
      (m'.run Host.none 3 after 21).map (·.1) = some (.ok (.ok (.int 7))) ∧
      (m'.run Host.none 3 .new 21).map (·.1) = some (.error ⟨21, .noActiveFrame⟩) := by
  have hcalm : ∀ x ∈ (Config.path Host.none 8 (Machine.leaving.runConfig .new 0)).1,
      ¬ x.Resets Host.none := fun x hx => (Config.calm_of_path (by decide +kernel) [] x hx).1
  have hout : ((Config.path Host.none 8 (Machine.leaving.runConfig .new 0)).2.result?.map
      fun out => Machine.finish 0 out.1 out.2).map (fun out =>
        (out.1, out.2.2.depth, (out.2.1.run Host.none 3 out.2.2 21).map (·.1),
          (out.2.1.run Host.none 3 .new 21).map (·.1))) =
      some (.ok (.ok (.bool true)), 1, some (.ok (.ok (.int 7))),
        some (.error ⟨21, .noActiveFrame⟩)) := by decide +kernel
  obtain ⟨⟨result, m', after⟩, hfinish, hends⟩ := Option.map_eq_some_iff.mp hout
  obtain ⟨⟨exit, s⟩, hresult, hfinish⟩ := Option.map_eq_some_iff.mp hfinish
  simp only [Prod.mk.injEq] at hends
  obtain ⟨rfl, hdepth, hnext, hnew⟩ := hends
  exact ⟨_, m', after, ⟨_, exit, s, Config.trace_path Host.none 8 _, hresult, hfinish⟩, hcalm, rfl,
    hdepth, hnext, hnew⟩

end StackVM
