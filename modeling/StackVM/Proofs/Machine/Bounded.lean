import StackVM.Proofs.Machine.Confined

/-! # Contexts within their capacities

Whatever a host does with a context, each of its stacks stays within its capacity, and no frame or
handler remembers a height that the stack cannot have. This holds even when a native empties the
context in the middle of a run. As long as none does, the handlers are also in step with the
frames: no handler was installed deeper than the context is now, or deeper than a handler that was
installed after it.
-/
namespace StackVM

structure Context.Bounded (c : Context) : Prop where
  stack : c.sp ≤ Capacity.stack
  frames : c.depth ≤ Capacity.frames
  handlers : c.handlerCount ≤ Capacity.handlers
  saved : ∀ f ∈ c.frames, f.savedSp ≤ Capacity.stack
  marks : ∀ h ∈ c.handlers, h.sp ≤ Capacity.stack

section Bounded
variable {base : Base} {op : Opcode} {n : Nat} {c c' : Context} {control : Control}

theorem Context.bounded_new : Context.new.Bounded := by
  constructor <;> simp [Context.new, Context.sp, Context.depth, Context.handlerCount]

theorem Context.Bounded.of_suffix (h : c.Bounded) (hstack : c'.sp ≤ Capacity.stack)
    (hframes : c'.frames <:+ c.frames) (hhandlers : c'.handlers <:+ c.handlers) : c'.Bounded where
  stack := hstack
  frames := Nat.le_trans hframes.length_le h.frames
  handlers := Nat.le_trans hhandlers.length_le h.handlers
  saved f hf := h.saved f (hframes.subset hf)
  marks e he := h.marks e (hhandlers.subset he)

theorem Context.Bounded.pushFrame (h : c.Bounded) {f : Frame} (hstack : c'.sp ≤ Capacity.stack)
    (hframes : c'.frames = f :: c.frames) (hhandlers : c'.handlers = c.handlers)
    (hfew : c.depth < Capacity.frames) (hf : f.savedSp ≤ Capacity.stack) : c'.Bounded where
  stack := hstack
  frames := by
    rw [Context.depth, hframes, List.length_cons]
    exact hfew
  handlers := by simpa [Context.handlerCount, hhandlers] using h.handlers
  saved := by
    rw [hframes]
    exact List.forall_mem_cons.mpr ⟨hf, h.saved⟩
  marks := by
    rw [hhandlers]
    exact h.marks

/-- What an instruction pushes it has found room for, and the heights it remembers are those of the
stack before it. -/
theorem Effect.bounded (h : Effect base op n c control c') (hc : c.Bounded) : c'.Bounded := by
  have hstack : c'.sp ≤ Capacity.stack := h.sp_le hc.stack
  cases h with
  | trade htrade | halt _ htrade =>
    exact hc.of_suffix hstack (htrade.frames ▸ List.suffix_rfl) (htrade.handlers ▸ List.suffix_rfl)
  | install hframes hmark hfew =>
    have hmarks := List.forall_mem_cons.mpr ⟨hmark ▸ hc.stack, hc.marks⟩
    exact ⟨hstack, hc.frames, hfew, hc.saved, hmarks⟩
  | uninstall hhandlers =>
    apply hc.of_suffix hstack List.suffix_rfl
    rw [hhandlers]
    apply List.suffix_cons
  | enter hle hsaved hfew =>
    apply hc.pushFrame hstack rfl rfl hfew
    have hroom := hc.stack
    omega
  | ret _ hframes | leave _ hframes =>
    apply hc.of_suffix hstack
    · rw [hframes]
      apply List.suffix_cons
    · apply dropHandlers_suffix
  | caught _ htrade _ hhandlers =>
    apply hc.of_suffix hstack
    · rw [← htrade.frames]
      apply keepOldest_suffix
    · rw [← htrade.handlers, hhandlers]
      apply List.suffix_cons
  | escape _ htrade =>
    apply hc.of_suffix hstack
    · rw [Context.frames_abandon, ← htrade.frames]
      apply keepOldest_suffix
    · simp [Context.handlers_abandon, htrade.handlers]
  | fault => exact hc

end Bounded

namespace Config
variable {host : Host} {c d : Config}

theorem finishRun_bounded {s : State} (h : s.context.Bounded) (base : Base) (savedSp entry : Nat)
    (result : Except Fault Exit) : (finishRun base savedSp entry s result).2.context.Bounded := by
  have hstack := Nat.le_trans (finishRun_sp_le base savedSp entry s result) h.stack
  have hrestore : (restore base savedSp s).context.sp ≤ Capacity.stack →
      (restore base savedSp s).context.Bounded := fun hsp =>
    h.of_suffix hsp (keepOldest_suffix _ _) (keepOldest_suffix _ _)
  cases result with
  | error f => exact hrestore hstack
  | ok e =>
    cases e with
    | halted v => exact hrestore hstack
    | returned v => exact h
    | raised v => exact h

theorem Replies.bounded {answer : Except Fault MethodResult} {s : State} {resume : Resume}
    {rest : List Pending} (h : Replies c answer s resume rest) (hc : c.state.context.Bounded) :
    s.context.Bounded := by
  cases h with
  | settled | failed => exact hc
  | crowded hfull =>
    rw [state_eq_of_pushFrame_error hfull]
    exact hc
  | ended => exact finishRun_bounded hc _ _ _ _

theorem Moves.bounded (h : Moves c d) (hc : c.state.context.Bounded) :
    d.state.context.Bounded := by
  cases h with
  | fetch _ heffect | finish heffect => exact heffect.bounded hc
  | stuck | invoke => exact hc
  | choose _ _ _ hcontext | answer _ _ _ _ hcontext =>
    rw [hcontext]
    exact hc
  | start _ hsaved hcontext hfew =>
    have hf := hsaved ▸ hc.stack
    rw [hcontext]
    exact hc.pushFrame hc.stack rfl rfl hfew hf
  | close _ _ _ hcontext =>
    rw [hcontext]
    exact finishRun_bounded hc _ _ _ _

/-- A step in which a native empties the context leaves the context that the native found, or an
empty one. -/
theorem step_bounded (hstep : step host c = some d) (hc : c.state.context.Bounded) :
    d.state.context.Bounded := by
  by_cases hcalm : c.Resets host
  · obtain ⟨a, rest, s, hresumes, -⟩ := hcalm
    have hs : s.context.Bounded := by
      cases hresumes with
      | start => exact hc
      | reply hreply => exact hreply.bounded hc
    have hact := step_of_resumes hresumes
    rw [hstep] at hact
    cases hact
    rcases act_context rest a s with hsame | hnew
    · rw [hsame]
      exact hs
    · rw [hnew]
      exact Context.bounded_new
  · exact (moves_of_step hstep hcalm hc.stack).bounded hc

theorem Reaches.bounded (h : c.Reaches host d) (hc : c.state.context.Bounded) :
    d.state.context.Bounded :=
  h.induct hc fun _ _ _ hm hstep => step_bounded hstep hm

end Config

theorem Machine.finish_context {n : Nat} {exit : Except Fault Exit} {s : State}
    {result : Except Fault Outcome} {m : Machine} {ctx : Context}
    (h : finish n exit s = (result, m, ctx)) :
    ctx.stack = s.context.stack ∧ ctx.frames = s.context.frames ∧
      ctx.handlers <:+ s.context.handlers := by
  cases exit with
  | error f =>
    cases h
    exact ⟨rfl, rfl, List.suffix_rfl⟩
  | ok e =>
    cases e with
    | halted v | returned v | raised v =>
      cases h
      exact ⟨rfl, rfl, keepOldest_suffix _ _⟩

theorem Context.Reachable.bounded {host : Host} {ctx : Context} (h : ctx.Reachable host) :
    ctx.Bounded := by
  induction h with
  | new => exact Context.bounded_new
  | during _ hreaches ih => exact hreaches.bounded ih
  | after _ hrun ih =>
    obtain ⟨cs, c, exit, s, htrace, hresult, hfinish⟩ := Machine.exists_runs_iff.mpr ⟨_, hrun⟩
    obtain ⟨-, -, rfl⟩ := Config.control_of_result? hresult
    have hend := htrace.reaches.bounded ih
    obtain ⟨hstack, hframes, hhandlers⟩ := Machine.finish_context hfinish
    apply hend.of_suffix _ (hframes ▸ List.suffix_rfl) hhandlers
    simpa [Context.sp, hstack] using hend.stack

/-- The handlers, newest first, were installed at depths that go down from that of the context. -/
def Context.InStep (c : Context) : Prop := Descends 0 0 c.depth c.handlers

namespace Descends
variable {low height depth : Nat} {new hs : List Handler}

theorem append (h : Descends low height depth new) (hbelow : Descends 0 0 low hs) :
    Descends 0 0 depth (new ++ hs) := by
  induction h with
  | nil hle => exact hbelow.mono hle
  | cons hframes _ _ ih => exact .cons hframes (Nat.zero_le _) ih

theorem of_suffix (h : Descends low height depth hs) (hnew : new <:+ hs) :
    Descends low height depth new := by
  induction h with
  | nil hle =>
    rw [List.suffix_nil.mp hnew]
    exact .nil hle
  | cons hframes hsp hrest ih =>
    rcases List.suffix_cons_iff.mp hnew with rfl | hnew
    · exact .cons hframes hsp hrest
    · exact (ih hnew).mono hframes

theorem le_of_mem (h : Descends low height depth hs) {e : Handler} (he : e ∈ hs) :
    e.frames ≤ depth := by
  induction h with
  | nil => simp at he
  | cons hframes _ _ ih =>
    rcases List.mem_cons.mp he with rfl | he
    · exact hframes
    · exact Nat.le_trans (ih he) hframes

theorem pairwise (h : Descends low height depth hs) :
    hs.Pairwise fun newer older => older.frames ≤ newer.frames := by
  induction h with
  | nil => exact .nil
  | cons _ _ hrest ih => exact .cons (fun _ he => hrest.le_of_mem he) ih

end Descends

section InStep
variable {kept : List Value} {ground : Mode → Context → Prop} {mode : Mode} {base : Base}
  {fs : List Frame} {q : List Pending} {k c : Context}

theorem Layer.inStep (h : Layer kept base fs k mode c) (hfloor : base.Floor k fs)
    (hk : k.InStep) : c.InStep := by
  rcases h.over_or_left with hover | ⟨hframes, hhandlers⟩
  · obtain ⟨new, hnew, hdescends⟩ := hover.handlers
    have hdepth : k.depth ≤ fs.length := hfloor.suffix.length_le
    rw [Context.InStep, hnew]
    exact hdescends.append (hk.mono hdepth)
  · rw [Context.InStep, Context.depth, hframes, hhandlers]
    exact hk

theorem Layered.inStep (hground : ∀ mode k, ground mode k → k.InStep)
    (h : Layered kept ground mode q c) : c.InStep := by
  induction q generalizing mode c with
  | nil => exact hground mode c h
  | cons work q ih =>
    cases work with
    | nested base savedSp entry resume =>
      obtain ⟨k, fs, -, hfloor, -, -, hlayer, hbelow⟩ := layered_nested.mp h
      exact hlayer.inStep hfloor (ih hbelow)
    | call | overloads | native =>
      cases mode with
      | choosing => exact ih h
      | running | ended => exact h.elim

theorem Config.Trace.inStep {host : Host} {m : Machine} {ctx : Context} {entry : Nat}
    {cs : List Config} {c : Config} (htrace : Trace host (m.runConfig ctx entry) cs c)
    (hcalm : ∀ x ∈ cs, ¬ x.Resets host) (hroom : ctx.sp ≤ Capacity.stack) (hctx : ctx.InStep) :
    c.state.context.InStep := by
  obtain ⟨fs, hfloor, -, q, -, hlayered⟩ := (Begins.outer m ctx entry).layers hroom htrace
    fun x hx => ⟨hcalm x hx, htrace.not_ended hx⟩
  exact hlayered.inStep fun _ _ hlayer => hlayer.inStep hfloor hctx

end InStep

/-- A context is new, or a run came by it or left it, and in that run and all the runs before no
native emptied the context. -/
inductive Context.Undisturbed (host : Host) : Context → Prop
  | new : Undisturbed host .new
  | during {m : Machine} {ctx : Context} {entry : Nat} {cs : List Config} {c : Config} :
      Undisturbed host ctx → Config.Trace host (m.runConfig ctx entry) cs c →
      (∀ x ∈ cs, ¬ x.Resets host) → Undisturbed host c.state.context
  | after {m m' : Machine} {ctx ctx' : Context} {entry : Nat} {cs : List Config}
      {result : Except Fault Outcome} :
      Undisturbed host ctx → m.Runs host ctx entry cs result m' ctx' →
      (∀ x ∈ cs, ¬ x.Resets host) → Undisturbed host ctx'

theorem Context.Undisturbed.reachable {host : Host} {ctx : Context} (h : ctx.Undisturbed host) :
    ctx.Reachable host := by
  induction h with
  | new => exact .new
  | during _ htrace _ ih => exact .during ih htrace.reaches
  | after _ hruns _ ih =>
    obtain ⟨fuel, hrun⟩ := Machine.exists_runs_iff.mp ⟨_, hruns⟩
    exact .after ih hrun

theorem Context.Undisturbed.inStep {host : Host} {ctx : Context} (h : ctx.Undisturbed host) :
    ctx.InStep := by
  induction h with
  | new => exact .nil (Nat.le_refl _)
  | during hctx htrace hcalm ih => exact htrace.inStep hcalm hctx.reachable.sp_le ih
  | after hctx hruns hcalm ih =>
    obtain ⟨c, exit, s, htrace, hresult, hfinish⟩ := hruns
    obtain ⟨-, -, rfl⟩ := Config.control_of_result? hresult
    have hend := htrace.inStep hcalm hctx.reachable.sp_le ih
    obtain ⟨-, hframes, hhandlers⟩ := Machine.finish_context hfinish
    rw [Context.InStep, Context.depth, hframes]
    exact hend.of_suffix hhandlers

/-- In every context that a host can have, the stack holds at most 1024 values, there are at most
64 frames and 64 handlers, and no frame or handler remembers a height above 1024. If no native ever
emptied the context in the middle of a run, the handlers from the oldest to the newest were
installed at depths that never decrease, and none deeper than the context is. -/
theorem context_bounded {host : Host} {ctx : Context} (h : ctx.Reachable host) :
    ctx.stack.length ≤ 1024 ∧ ctx.frames.length ≤ 64 ∧ ctx.handlers.length ≤ 64 ∧
    (∀ f ∈ ctx.frames, f.savedSp ≤ 1024) ∧ (∀ e ∈ ctx.handlers, e.sp ≤ 1024) ∧
    (ctx.Undisturbed host →
      (ctx.handlers.Pairwise fun newer older => older.frames ≤ newer.frames) ∧
        ∀ e ∈ ctx.handlers, e.frames ≤ ctx.frames.length) := by
  have hbounded := h.bounded
  have hinstep : ctx.Undisturbed host →
      (ctx.handlers.Pairwise fun newer older => older.frames ≤ newer.frames) ∧
        ∀ e ∈ ctx.handlers, e.frames ≤ ctx.frames.length := fun hctx =>
    ⟨hctx.inStep.pairwise, fun _ => hctx.inStep.le_of_mem⟩
  exact ⟨hbounded.stack, hbounded.frames, hbounded.handlers, hbounded.saved, hbounded.marks,
    hinstep⟩

/-- A run on what a faulted run left, up to a handler inside a call inside a handler. -/
def Context.nestedBlocks : Context :=
  (Config.path Host.none 7 (Machine.sample.runConfig .leftover 0)).2.state.context

theorem Context.Undisturbed.of_path {host : Host} {ctx : Context} (h : ctx.Undisturbed host)
    (m : Machine) (entry n : Nat)
    (hquiet : (Config.path host n (m.runConfig ctx entry)).1.all Config.isQuiet = true) :
    (Config.path host n (m.runConfig ctx entry)).2.state.context.Undisturbed host :=
  .during h (Config.trace_path host n _) fun x hx => (Config.calm_of_path hquiet [] x hx).1

theorem Context.undisturbed_nestedBlocks : nestedBlocks.Undisturbed Host.none := by
  have hleftover : Context.leftover.Undisturbed Host.none :=
    .of_path .new Machine.sample 16 5 (by decide)
  exact hleftover.of_path Machine.sample 0 7 (by decide)

theorem context_bounded_nestedBlocks :
    Context.nestedBlocks.Reachable Host.none ∧ Context.nestedBlocks.Undisturbed Host.none ∧
    Context.nestedBlocks.handlers.map (·.frames) = [2, 1, 0] ∧
    Context.nestedBlocks.frames.length = 2 ∧
    (Context.nestedBlocks.handlers.Pairwise fun newer older => older.frames ≤ newer.frames) ∧
    ∀ e ∈ Context.nestedBlocks.handlers, e.frames ≤ Context.nestedBlocks.frames.length := by
  have hctx := Context.undisturbed_nestedBlocks
  obtain ⟨-, -, -, -, -, hinstep⟩ := context_bounded hctx.reachable
  exact ⟨hctx.reachable, hctx, by decide, by decide, hinstep hctx⟩

end StackVM
