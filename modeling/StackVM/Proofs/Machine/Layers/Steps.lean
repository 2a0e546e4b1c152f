import StackVM.Proofs.Machine.Layers.Pending

/-! # Steps keep the layers

A step keeps the layers of all pending work, whatever the ground is, as long as the step does not
leave the ground.
-/
namespace StackVM

namespace Config
variable {kept : List Value} {ground ground' : Mode → Context → Prop} {rest : List Pending}
  {c d : Config}

/-- The next step is that of an instruction of the run over this pending work, or the end of one of
its calls. -/
inductive Performs (base : Base) (rest : List Pending) : Opcode → Config → Prop
  | fetch {ip next : Nat} {i : Instr} {s : State} :
      s.machine.program.decodeAt ip = .ok (i, next) →
      Performs base rest i.opcode ⟨.run base ip, rest, s⟩
  | finish {result : Except Fault Dispatch} {pos next count : Nat} {callee : Function}
      {s : State} :
      Performs base rest .call ⟨.dispatched result, .call base pos next count callee :: rest, s⟩

theorem Performs.fetched {base : Base} {op : Opcode} (h : c.Performs base rest op)
    (hop : op ≠ .call) : ∃ ip next i s, c = ⟨.run base ip, rest, s⟩ ∧
      s.machine.program.decodeAt ip = .ok (i, next) ∧ i.opcode = op := by
  cases h with
  | fetch hdecode => exact ⟨_, _, _, _, rfl, hdecode, rfl⟩
  | finish => exact absurd rfl hop

/-- The pending work above `rest` is layered over the ground. -/
def Layers (kept : List Value) (ground : Mode → Context → Prop) (rest : List Pending)
    (c : Config) : Prop :=
  ∃ q, c.pending = q ++ rest ∧ Layered kept ground c.control.mode q c.state.context

theorem le_of_not_removes {n : Nat} (h : ∀ p < n, ¬ c.Removes p)
    (hn : n ≤ c.state.context.sp) : n ≤ c.state.context.sp - c.taken := by
  by_contra hlt
  have hlt := Nat.lt_of_not_le hlt
  exact h _ hlt ⟨Nat.le_refl _, Nat.lt_of_lt_of_le hlt hn⟩

theorem Layers.performs {base : Base} {op : Opcode} (h : c.Layers kept ground rest)
    (hperforms : c.Performs base rest op) : ground (.running base) c.state.context := by
  obtain ⟨q, hq, h⟩ := h
  cases hperforms with
  | fetch =>
    rw [List.self_eq_append_left.mp hq] at h
    exact h
  | finish =>
    rcases List.cons_eq_append_iff.mp hq with ⟨-, hrest⟩ | ⟨q', rfl, hrest⟩
    · exact absurd (congrArg List.length hrest) (by simp)
    · rw [List.self_eq_append_left.mp hrest] at h
      exact h

theorem Layers.stays (h : c.Layers kept ground rest) (hground : ∀ k, ¬ ground .choosing k)
    (hgoing : ¬ c.Ended rest) (hpending : c.pending = rest) :
    ∃ base ip, c.control = .run base ip := by
  obtain ⟨q, hq, h⟩ := h
  rw [hpending] at hq
  rw [List.self_eq_append_left.mp hq] at h
  cases hcontrol : c.control with
  | run base ip => exact ⟨base, ip, rfl⟩
  | dispatch | dispatched =>
    rw [hcontrol] at h
    exact absurd h (hground _)
  | exited result => exact absurd ⟨hpending, result, hcontrol⟩ hgoing

theorem Layers.replies {answer : Except Fault MethodResult} {s : State} {resume : Resume}
    (h : c.Layers kept ground rest) (hcarry : Carries kept c.state.context ground ground')
    (hreply : Replies c answer s resume rest) : ground' .choosing s.context := by
  obtain ⟨q, hq, h⟩ := h
  have hone : ∀ {w}, c.pending = w :: rest → q = [w] := by
    intro w hw
    rw [hw, List.cons_eq_append_iff] at hq
    rcases hq with ⟨rfl, hrest⟩ | ⟨q', rfl, hrest⟩
    · exact absurd (congrArg List.length hrest) (by simp)
    · rw [List.self_eq_append_left.mp hrest]
  have hsame : ∀ {k}, ground .choosing k → k = c.state.context → ground' .choosing k := by
    rintro k hk rfl
    exact hcarry.shrink hk List.suffix_rfl List.suffix_rfl (.refl kept _)
  cases hreply with
  | settled | failed =>
    cases hone rfl
    exact hsame h rfl
  | crowded hfull =>
    cases hone rfl
    rw [state_eq_of_pushFrame_error hfull]
    exact hsame h rfl
  | ended =>
    cases hone rfl
    obtain ⟨k, fs, hnested, hfloor, rfl, hk, hlayer, hbelow⟩ := layered_nested.mp h
    obtain ⟨hframes, hhandlers⟩ := hlayer.suffix hfloor
    exact hcarry.shrink hbelow hframes hhandlers (hlayer.finishRun hfloor hnested hk _)

/-- A step above the ground keeps the layers; what it does on the ground itself is up to the
ground. -/
theorem Layers.step (h : c.Layers kept ground rest) (hmoves : Moves c d)
    (hkept : ∀ p < kept.length, ¬ c.Removes p)
    (hstays : c.pending = rest → ∃ base ip, c.control = .run base ip)
    (hcarry : Carries kept c.state.context ground ground')
    (hground : ∀ base op, c.Performs base rest op → ground (.running base) c.state.context →
      Effect base op c.taken c.state.context d.control d.state.context →
      ground' d.control.mode d.state.context) :
    d.Layers kept ground' rest := by
  obtain ⟨q, hq, h⟩ := h
  have hcarried : ∀ {mode q}, Layered kept ground mode q c.state.context →
      Layered kept ground' mode q c.state.context := fun hl =>
    hl.carry hcarry List.suffix_rfl List.suffix_rfl (.refl kept _)
  cases hmoves with
  | @fetch base ip next i control p s s' hdecode heffect =>
    cases hq
    refine ⟨q, rfl, h.effect heffect hcarry (le_of_not_removes hkept) ?_⟩
    rintro rfl hbottom
    exact hground base i.opcode (.fetch hdecode) hbottom heffect
  | @stuck base ip f p s =>
    cases hq
    exact ⟨q, rfl, h.stuck hcarry⟩
  | invoke =>
    cases hq
    exact ⟨_ :: q, rfl, hcarried h⟩
  | @finish result base pos next count callee control p s s' heffect =>
    cases q with
    | nil =>
      obtain ⟨_, _, hcontrol⟩ := hstays hq
      cases hcontrol
    | cons work q =>
      cases hq
      refine ⟨q, rfl, h.effect heffect hcarry (le_of_not_removes hkept) ?_⟩
      rintro rfl hbottom
      exact hground base .call .finish hbottom heffect
  | @choose callee args control works p s s' hcontrol hworks hcontext =>
    cases hq
    refine ⟨works ++ q, (List.append_assoc works q rest).symm, ?_⟩
    rw [hcontrol.mode_eq, hcontext]
    exact (hcarried h).passive hworks
  | @answer result work control works p s s' hwork hcontrol hworks hcontext =>
    cases q with
    | nil =>
      obtain ⟨_, _, hcontrol⟩ := hstays hq
      cases hcontrol
    | cons work' q =>
      cases hq
      refine ⟨works ++ q, (List.append_assoc works q rest).symm, ?_⟩
      rw [hcontrol.mode_eq, hcontext]
      refine (hcarried ?_).passive hworks
      cases work with
      | overloads | native => exact h
      | call | nested => exact hwork.elim
  | @start r args resume base entry f p s s' hbase hsaved hcontext =>
    cases q with
    | nil =>
      obtain ⟨_, _, hcontrol⟩ := hstays hq
      cases hcontrol
    | cons work q =>
      cases hq
      have hstack : kept <:+ s.context.stack := h.stack hcarry (by simp [Control.mode])
      subst hbase
      refine ⟨_ :: q, rfl, layered_nested.mpr ⟨s.context, _, rfl, .nested hsaved, rfl,
        hstack.length_le, ⟨rfl, ?_⟩, hcarried h⟩⟩
      rw [hcontext]
      exact .bottom hstack rfl rfl
  | @close result base savedSp entry resume control works p s s' hcontrol hworks hcontext =>
    cases q with
    | nil =>
      obtain ⟨_, _, hcontrol⟩ := hstays hq
      cases hcontrol
    | cons work q =>
      cases hq
      obtain ⟨k, fs, hnested, hfloor, rfl, hk, hlayer, hbelow⟩ := layered_nested.mp h
      obtain ⟨hframes, hhandlers⟩ := hlayer.suffix hfloor
      refine ⟨works ++ q, (List.append_assoc works q rest).symm, ?_⟩
      rw [hcontrol.mode_eq, hcontext]
      refine Layered.passive ?_ hworks
      exact hbelow.carry hcarry hframes hhandlers (hlayer.finishRun hfloor hnested hk entry)

end Config

/-- The ground of work that has been waiting in this mode since the given context. -/
def Waiting (kept : List Value) (k : Context) (waiting : Mode) : Mode → Context → Prop
  | .ended _, _ => True
  | mode, c => mode = waiting ∧ kept <:+ c.stack ∧ k.Shrinks kept c

theorem Waiting.carries (kept : List Value) (k top : Context) (waiting : Mode) :
    Carries kept top (Waiting kept k waiting) (Waiting kept k waiting) where
  choosing h := h.2.1
  running h := h.2.1
  shrink := by
    intro mode k₁ k₂ h _ _ hk
    cases mode with
    | ended => trivial
    | choosing | running =>
      obtain ⟨hmode, hstack, hshrinks⟩ := h
      exact ⟨hmode, hk.stack hstack, hk.frames.trans hshrinks.frames,
        hk.handlers.trans hshrinks.handlers, fun _ => hk.stack hstack,
        Nat.le_trans hk.sp hshrinks.sp⟩
  stuck _ := trivial

/-- Work that waits finds its ground as it was, as long as something is pending above it. -/
theorem Config.Trace.waits {host : Host} {kept : List Value} {k : Context} {waiting : Mode}
    {rest : List Pending} {e c : Config} {cs : List Config} (htrace : Trace host e cs c)
    (hroom : e.state.context.sp ≤ Capacity.stack)
    (he : e.Layers kept (Waiting kept k waiting) rest) (hcalm : ∀ x ∈ cs, ¬ x.Resets host)
    (hkept : ∀ x ∈ cs, ∀ p < kept.length, ¬ x.Removes p)
    (hwaits : ∀ x ∈ cs, rest.length < x.pending.length) (hc : rest.length < c.pending.length) :
    c.Layers kept (Waiting kept k waiting) rest := by
  refine (htrace.induct
    (I := fun _ x => x.state.context.sp ≤ Capacity.stack ∧
      (rest.length < x.pending.length → x.Layers kept (Waiting kept k waiting) rest))
    (P := fun x => ¬ x.Resets host ∧ (∀ p < kept.length, ¬ x.Removes p) ∧
      rest.length < x.pending.length)
    ⟨hroom, fun _ => he⟩ (fun x hx => ⟨hcalm x hx, hkept x hx, hwaits x hx⟩) ?_).2 hc
  rintro xs x y ⟨hcalm, hkept, hx⟩ ⟨hsp, hlayers⟩ hstep
  have hmoves := moves_of_step hstep hcalm hsp
  refine ⟨hmoves.sp_le hsp, fun hy => ?_⟩
  refine (hlayers hx).step hmoves hkept ?_ (Waiting.carries _ _ _ _) ?_
  · intro hpending
    rw [hpending] at hx
    exact absurd hx (Nat.lt_irrefl _)
  · intro base op hperforms
    cases hperforms with
    | fetch => exact absurd hx (Nat.lt_irrefl _)
    | finish =>
      cases hmoves with
      | finish => exact absurd hy (Nat.lt_irrefl _)
      | answer _ hpassive => exact hpassive.elim

end StackVM
