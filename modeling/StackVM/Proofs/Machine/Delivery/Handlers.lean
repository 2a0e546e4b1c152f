import StackVM.Proofs.Machine.Stretch

/-! # Handlers and their removal

An exception goes to the newest handler of its run, if there is one, and raising it cannot fail.
A handler is gone by the end of its block, by an exception that it caught, or by the return of the
call that installed it.
-/
namespace StackVM

/-- An instruction of the run over this pending work raises an exception with the next step; its
operands, or the callee and the arguments, have been taken off the stack in the given state. -/
inductive Config.Raises (base : Base) (rest : List Pending) : Config → Value → State → Prop
  | instr {ip next : Nat} {i : Instr} {s s' : State} {v : Value} :
      s.machine.program.decodeAt ip = .ok (i, next) →
      Exec.instr base ip next i s = .ok (.raise v) s' →
      Raises base rest ⟨.run base ip, rest, s⟩ v s'
  | call {pos next count : Nat} {callee : Function} {d : Dispatch} {s s' : State} {v : Value} :
      finishCall pos next count callee d s = .ok (.raise v) s' →
      Raises base rest ⟨.dispatched (.ok d), .call base pos next count callee :: rest, s⟩ v s'

/-- An instruction of the run installs the handler with the next step. -/
inductive Config.Installs (base : Base) (rest : List Pending) (h : Handler) : Config → Prop
  | tryStart {ip next : Nat} {offset : Int16} {s s' : State} :
      s.machine.program.decodeAt ip = .ok (⟨.tryStart, offset⟩, next) →
      relativeTarget? next offset = some h.catchIp → h.frames = s.context.depth →
      h.sp = s.context.sp → Exec.tryStart ip next offset s = .ok .next s' →
      Installs base rest h ⟨.run base ip, rest, s⟩

/-- An instruction of the run removes the handler, which was installed over the others, with the
next step. -/
inductive Config.Retires (base : Base) (rest : List Pending) (h : Handler) (hs : List Handler) :
    Config → Prop
  | tryEnd {ip next : Nat} {x : Unit} {s : State} :
      s.machine.program.decodeAt ip = .ok (⟨.tryEnd, x⟩, next) → s.context.handlers = h :: hs →
      Retires base rest h hs ⟨.run base ip, rest, s⟩
  | ret {ip next : Nat} {x : Unit} {s : State} :
      s.machine.program.decodeAt ip = .ok (⟨.ret, x⟩, next) → h :: hs <:+ s.context.handlers →
      s.context.depth = h.frames → Retires base rest h hs ⟨.run base ip, rest, s⟩
  | caught {c : Config} {v : Value} {s : State} :
      c.Raises base rest v s → c.state.context.handlers = h :: hs → Retires base rest h hs c

/-- Every handler that the run installed in this part of a trace was removed in it. -/
def Config.Retired (base : Base) (rest : List Pending) (xs : List Config) : Prop :=
  ∀ xs₁ x xs₂ h, xs = xs₁ ++ x :: xs₂ → x.Installs base rest h →
    ∃ y ∈ xs₂, y.Retires base rest h x.state.context.handlers

section Effect
variable {kept : List Value} {base : Base} {fs : List Frame} {hs : List Handler} {op : Opcode}
  {n ip : Nat} {c c' : Context}

theorem Effect.handlers_cases (h : Effect base op n c (.run base ip) c') :
    c'.handlers <:+ c.handlers ∨ op = .tryStart ∧ ∃ e, c'.handlers = e :: c.handlers := by
  cases h with
  | trade htrade => exact Or.inl (htrade.handlers ▸ List.suffix_rfl)
  | install => exact Or.inr ⟨rfl, _, rfl⟩
  | uninstall hhandlers => exact Or.inl (hhandlers ▸ List.suffix_cons _ _)
  | enter => exact Or.inl List.suffix_rfl
  | ret => exact Or.inl (dropHandlers_suffix _ _ _)
  | caught _ htrade _ hhandlers =>
    rw [htrade.handlers] at hhandlers
    exact Or.inl (hhandlers ▸ List.suffix_cons _ _)

/-- The three ways to lose a handler. -/
theorem Effect.loses_handler {e : Handler} (h : Effect base op n c (.run base ip) c')
    (hc : c.Over kept fs (e :: hs)) (hframes : e.frames = fs.length)
    (hcount : c'.handlerCount ≤ hs.length) :
    (op = .tryEnd ∧ c.handlers = e :: hs) ∨ (op = .ret ∧ c.depth = e.frames) ∨
      op.CanRaise ∧ c.handlers = e :: hs := by
  have hle : hs.length < c.handlerCount := hc.handlers_suffix.length_le
  have hnewest : ∀ {e' rest}, c.handlers = e' :: rest → rest.length ≤ hs.length →
      c.handlers = e :: hs := by
    intro e' rest heq hlength
    refine (hc.handlers_suffix.eq_of_length_le ?_).symm
    rw [heq, List.length_cons, List.length_cons]
    omega
  cases h with
  | trade htrade =>
    rw [Context.handlerCount, htrade.handlers] at hcount
    exact absurd hle (Nat.not_lt_of_le hcount)
  | install => exact absurd hle (Nat.not_lt_of_le (Nat.le_of_succ_le hcount))
  | enter => exact absurd hle (Nat.not_lt_of_le hcount)
  | uninstall hhandlers => exact Or.inl ⟨rfl, hnewest hhandlers hcount⟩
  | ret _ hstack =>
    refine Or.inr (Or.inl ⟨rfl, ?_⟩)
    by_contra hne
    have hdepth : fs.length ≤ c.depth := hc.frames_suffix.length_le
    obtain ⟨new, hnew, -⟩ := hc.handlers
    have hstays : Exec.dropHandlers base.handlers c.depth (e :: hs) = e :: hs := by
      refine dropHandlers_eq_self ?_
      rintro e' rest heq -
      cases heq
      omega
    have hlong := le_length_dropHandlers_append new hstays
    rw [← hnew] at hlong
    exact absurd hcount (Nat.not_le_of_lt hlong)
  | caught hop htrade _ hhandlers =>
    rw [htrade.handlers] at hhandlers
    exact Or.inr (Or.inr ⟨hop, hnewest hhandlers hcount⟩)

end Effect

namespace Config
variable {host : Host} {before : Context} {base : Base} {rest : List Pending} {op : Opcode}
  {h : Handler} {v : Value} {s : State} {start c d x y : Config} {cs xs xs₁ xs₂ : List Config}

theorem Raises.performs (hr : c.Raises base rest v s) : ∃ op, c.Performs base rest op := by
  cases hr with
  | instr hdecode => exact ⟨_, .fetch hdecode⟩
  | call => exact ⟨_, .finish⟩

theorem Raises.step (host : Host) (hr : c.Raises base rest v s) :
    ∃ pos next, Config.step host c = some (proceed base pos next rest (.ok (.raise v) s)) := by
  cases hr with
  | @instr ip next i t _ _ hdecode hres => exact ⟨ip, next, by rw [step_run hdecode, hres]⟩
  | @call pos next count callee d t _ _ hres =>
    refine ⟨pos, next, ?_⟩
    rw [← hres]
    rfl

theorem Raises.traded (hr : c.Raises base rest v s) (hroom : c.state.context.sp ≤ Capacity.stack) :
    c.state.context.Traded c.taken s.context ∧ s.context.sp < Capacity.stack := by
  cases hr with
  | @instr ip next i t _ _ hdecode hres =>
    rw [taken_run hdecode hres (by simp)]
    exact ⟨(Exec.raise_trades hres).2, (Exec.instr_atomic hroom base ip next i).ok hres⟩
  | @call pos next count callee d t _ _ hres =>
    rw [taken_finish callee d hres]
    have hdrop := traded_drop_min t.context (count + 1)
    have hlt := sp_drop_lt hroom count
    cases d with
    | enter r => cases (enter_eq_ok hres).1
    | settled result =>
      cases result with
      | ok w =>
        simp only [finishCall, Exec.bind_apply, Exec.discard, Exec.push, if_pos hlt] at hres
        cases hres
      | exception w =>
        cases hres
        exact ⟨hdrop, hlt⟩
      | failed why =>
        cases hres
        exact ⟨hdrop, hlt⟩

theorem raise_of_proceed {r : EStateM.Result Fault State Step} {n pos next ip : Nat}
    (hr : ∀ step t, r = .ok step t → t.context.handlerCount = n)
    (hrun : (proceed base pos next rest r).control = .run base ip)
    (hcount : (proceed base pos next rest r).state.context.handlerCount < n) :
    ∃ v t, r = .ok (.raise v) t := by
  cases r with
  | error f t => cases hrun
  | ok step t =>
    have ht := hr step t rfl
    cases step with
    | raise v => exact ⟨v, t, rfl⟩
    | next | jump => exact absurd hcount (Nat.not_lt_of_le (Nat.le_of_eq ht.symm))
    | exit | invoke => cases hrun

/-- Of the instructions that can raise, one that removes a handler and goes on has raised. -/
theorem raises_of_fewer_handlers (hp : c.Performs base rest op) (hop : op.CanRaise)
    (hstep : step host c = some d) {ip : Nat} (hrun : d.control = .run base ip)
    (hcount : d.state.context.handlerCount < c.state.context.handlerCount) :
    ∃ v s, c.Raises base rest v s := by
  cases hp with
  | @fetch ip next i t hdecode =>
    rw [step_run hdecode] at hstep
    cases hstep
    have hsame : ∀ step t', Exec.instr base ip next i t = .ok step t' →
        t'.context.handlerCount = t.context.handlerCount := by
      intro step t' hres
      rcases hop with hm | hcall
      · exact congrArg List.length (Exec.instr_trades hm _ _ hres).1.handlers
      · obtain ⟨op, x⟩ := i
        cases hcall
        rcases Exec.call_trades hres with ⟨_, _, -, -, rfl, -⟩ | ⟨_, -, htrade⟩
        · rfl
        · exact congrArg List.length htrade.handlers
    obtain ⟨v, t', hres⟩ := raise_of_proceed hsame hrun hcount
    exact ⟨v, t', .instr hdecode hres⟩
  | @finish result pos next count callee t =>
    cases result with
    | error f =>
      cases hstep
      cases hrun
    | ok chosen =>
      cases hstep
      have hsame : ∀ step t', finishCall pos next count callee chosen t = .ok step t' →
          t'.context.handlerCount = t.context.handlerCount := by
        intro step t' hres
        cases chosen with
        | enter r =>
          obtain ⟨-, -, -, _, -, -, hcontext⟩ := enter_eq_ok hres
          rw [hcontext]
          rfl
        | settled result =>
          cases result with
          | ok w =>
            simp only [finishCall, Exec.bind_apply, Exec.discard, Exec.push] at hres
            split at hres
            next hpush =>
              split at hpush
              · cases hpush
                cases hres
                rfl
              · cases hpush
            next => cases hres
          | exception | failed =>
            cases hres
            rfl
      obtain ⟨v, t', hres⟩ := raise_of_proceed hsame hrun hcount
      exact ⟨v, t', .call hres⟩

theorem installs_of_step {e : Handler} (hp : c.Performs base rest .tryStart)
    (hstep : step host c = some d) (hroom : c.state.context.sp ≤ Capacity.stack)
    (hd : d.state.context.handlers = e :: c.state.context.handlers) : c.Installs base rest e := by
  obtain ⟨ip, next, ⟨op, offset⟩, t, rfl, hdecode, hop⟩ := hp.fetched (by simp)
  cases hop
  rw [step_run hdecode] at hstep
  cases hres : Exec.instr base ip next ⟨.tryStart, offset⟩ t with
  | error f t' =>
    cases (Exec.instr_atomic hroom base ip next ⟨.tryStart, offset⟩).error hres
    rw [hres] at hstep
    cases hstep
    exact absurd (congrArg List.length hd) (by simp [proceed])
  | ok step t' =>
    obtain ⟨rfl, h, htarget, hframes, hsp, -, rfl⟩ := Exec.tryStart_eq_ok hres
    rw [hres] at hstep
    cases hstep
    cases hd
    exact .tryStart hdecode htarget hframes hsp hres

theorem Installs.step (hx : x.Installs base rest h) (hstep : Config.step host x = some y) :
    h.frames = x.state.context.depth ∧ h.sp = x.state.context.sp ∧ ∃ ip, y.control = .run base ip ∧
      y.pending = rest ∧ y.state.context =
        { x.state.context with handlers := h :: x.state.context.handlers } := by
  cases hx with
  | @tryStart ip next offset t t' hdecode htarget hframes hsp hres =>
    obtain ⟨-, h', htarget', hframes', hsp', -, rfl⟩ := Exec.tryStart_eq_ok hres
    have heq : h' = h := by
      obtain ⟨catchIp, frames, sp⟩ := h
      obtain ⟨catchIp', frames', sp'⟩ := h'
      dsimp only at htarget htarget' hframes hframes' hsp hsp'
      rw [htarget] at htarget'
      cases htarget'
      subst hframes hframes' hsp hsp'
      rfl
    subst heq
    have hinstr : Exec.instr base ip next ⟨.tryStart, offset⟩ t = _ := hres
    rw [step_run hdecode, hinstr] at hstep
    cases hstep
    exact ⟨hframes, hsp, next, rfl, rfl, rfl⟩

theorem Installs.layers {kept : List Value} (hx : x.Installs base rest h)
    (hstep : Config.step host x = some y) (hkept : kept <:+ x.state.context.stack) :
    y.Layers kept (Stretch kept base x.state.context.frames (h :: x.state.context.handlers))
      rest := by
  obtain ⟨-, -, ip, hcontrol, hpending, hcontext⟩ := hx.step hstep
  refine ⟨[], hpending, ?_⟩
  rw [hcontrol, hcontext]
  exact ⟨rfl, .bottom hkept rfl rfl⟩

theorem Installs.over {kept : List Value} (hx : x.Installs base rest h)
    (hstep : Config.step host x = some y) (htrace : Trace host y cs c)
    (hroom : x.state.context.sp ≤ Capacity.stack)
    (hown : base.handlers ≤ x.state.context.handlers.length)
    (hcs : ∀ z ∈ cs, ¬ z.Resets host ∧ ¬ z.Ended rest)
    (hkept : kept <:+ x.state.context.stack) (hremoves : ∀ z ∈ cs, ∀ p < kept.length, ¬ z.Removes p)
    (hinstalled : ∀ z ∈ cs, h :: x.state.context.handlers <:+ z.state.context.handlers)
    (hc : h :: x.state.context.handlers <:+ c.state.context.handlers)
    (hp : c.Performs base rest op) :
    c.state.context.Over kept x.state.context.frames (h :: x.state.context.handlers) := by
  obtain ⟨hframes, -⟩ := hx.step hstep
  have hlayers := htrace.stretch
    (R := fun k => h :: x.state.context.handlers <:+ k.handlers) (step_sp_le hstep hroom)
    (hx.layers hstep hkept) hcs hremoves hinstalled hc fun heffect hk hn hthere =>
      heffect.over_of_handler hk hn hown hframes hthere.length_le
  exact (hlayers.performs hp).2

theorem retires_of_effect {fs : List Frame} {hs : List Handler} {ip : Nat}
    (hp : c.Performs base rest op) (hstep : step host c = some d) (hrun : d.control = .run base ip)
    (heffect : Effect base op c.taken c.state.context (.run base ip) d.state.context)
    (hover : c.state.context.Over [] fs (h :: hs)) (hframes : h.frames = fs.length)
    (hcount : d.state.context.handlerCount ≤ hs.length) : c.Retires base rest h hs := by
  rcases heffect.loses_handler hover hframes hcount with
    ⟨rfl, hall⟩ | ⟨rfl, hdepth⟩ | ⟨hop, hall⟩
  · obtain ⟨ip, next, ⟨op, operand⟩, t, rfl, hdecode, hop⟩ := hp.fetched (by simp)
    cases hop
    exact .tryEnd hdecode hall
  · obtain ⟨ip, next, ⟨op, operand⟩, t, rfl, hdecode, hop⟩ := hp.fetched (by simp)
    cases hop
    exact .ret hdecode hover.handlers_suffix hdepth
  · have hfewer : d.state.context.handlerCount < c.state.context.handlerCount := by
      rw [Context.handlerCount, Context.handlerCount, hall, List.length_cons]
      exact Nat.lt_succ_of_le hcount
    obtain ⟨v, s, hraises⟩ := raises_of_fewer_handlers hp hop hstep hrun hfewer
    exact .caught hraises hall

/-- A handler that is no longer there has been retired. -/
theorem Installs.retired (hx : x.Installs base rest h) (hstep : Config.step host x = some y)
    (htrace : Trace host y cs c) (hroom : x.state.context.sp ≤ Capacity.stack)
    (hown : base.handlers ≤ x.state.context.handlers.length)
    (hcs : ∀ z ∈ cs, ¬ z.Resets host ∧ ¬ z.Ended rest) (hp : c.Performs base rest op)
    (hgone : c.state.context.handlerCount ≤ x.state.context.handlers.length) :
    ∃ z ∈ cs, z.Retires base rest h x.state.context.handlers := by
  obtain ⟨hframes, -⟩ := hx.step hstep
  have hinv := htrace.induct
    (I := fun zs z => z.state.context.sp ≤ Capacity.stack ∧
      (z.Layers [] (Stretch [] base x.state.context.frames (h :: x.state.context.handlers)) rest ∨
        ∃ w ∈ zs, w.Retires base rest h x.state.context.handlers))
    ⟨step_sp_le hstep hroom, Or.inl (hx.layers hstep List.nil_suffix)⟩ hcs ?_
  · rcases hinv.2 with hlayers | hretired
    · have hle := (hlayers.performs hp).2.handlers_suffix.length_le
      exact absurd hgone (Nat.not_le_of_lt hle)
    · exact hretired
  rintro zs z z' ⟨hcalm, hgoing⟩ ⟨hsp, hlayers | ⟨w, hw, hretires⟩⟩ hstep
  · have hmoves := moves_of_step hstep hcalm hsp
    refine ⟨hmoves.sp_le hsp, ?_⟩
    by_cases hretires : z.Retires base rest h x.state.context.handlers
    · exact Or.inr ⟨z, by simp, hretires⟩
    refine Or.inl (hlayers.step hmoves (by simp) (hlayers.stays (fun _ h => h) hgoing)
      (Stretch.carries _ _ _ _ _) ?_)
    rintro b op hz ⟨rfl, hover⟩ heffect
    rcases heffect.control_cases with ⟨ip, hcontrol⟩ | ⟨result, hcontrol⟩
    · rw [hcontrol] at heffect ⊢
      refine ⟨rfl, heffect.over_of_handler hover (Nat.zero_le _) hown hframes ?_⟩
      by_contra hlost
      exact hretires
        (retires_of_effect hz hstep hcontrol heffect hover hframes (Nat.le_of_not_lt hlost))
    · rw [hcontrol]
      trivial
  · exact ⟨step_sp_le hstep hsp, Or.inr ⟨w, List.mem_append_left _ hw, hretires⟩⟩

end Config
end StackVM
