import StackVM.Proofs.Machine.Delivery.Handlers

/-! # Where exceptions go

The handler that catches an exception was installed by the run earlier on, and all handlers that the
run installed after it are gone. The call that installed this one is still active, so it can be gone
back to: with its frames and handlers as they were, and with its values too if none of them was
taken since.
-/
namespace StackVM
namespace Config
variable {host : Host} {before : Context} {base : Base} {rest : List Pending} {op : Opcode}
  {h : Handler} {v : Value} {s : State} {start c d x y : Config} {cs xs xs₁ xs₂ : List Config}

/-- The ground of a run with a history: each of its handlers was installed at a point of the
history, and has been there since. -/
def Sites (base : Base) (rest : List Pending) (xs : List Config) : Mode → Context → Prop
  | .choosing, _ => False
  | .running base', k => base' = base ∧
    ∀ h hs, h :: hs <:+ k.handlers → base.handlers ≤ hs.length →
      ∃ xs₁ c₀ xs₂, xs = xs₁ ++ c₀ :: xs₂ ∧ c₀.Installs base rest h ∧
        c₀.state.context.handlers = hs ∧ ∀ x ∈ xs₂, h :: hs <:+ x.state.context.handlers
  | .ended _, _ => True

theorem Sites.extend {k k' : Context} {b : Base} (hk : Sites base rest xs (.running b) k)
    (hx : k'.handlers <:+ k.handlers) (hthere : k'.handlers <:+ x.state.context.handlers) :
    Sites base rest (xs ++ [x]) (.running b) k' := by
  refine ⟨hk.1, ?_⟩
  intro h hs hsuffix hle
  obtain ⟨xs₁, c₀, xs₂, rfl, hinstalls, heq, hsince⟩ := hk.2 h hs (hsuffix.trans hx) hle
  refine ⟨xs₁, c₀, xs₂ ++ [x], by simp, hinstalls, heq, ?_⟩
  intro z hz
  rcases List.mem_append.mp hz with hz | hz
  · exact hsince z hz
  · rw [List.mem_singleton.mp hz]
    exact hsuffix.trans hthere

theorem Sites.carries (base : Base) (rest : List Pending) (xs : List Config) (x : Config) :
    Carries [] x.state.context (Sites base rest xs) (Sites base rest (xs ++ [x])) where
  choosing h := h.elim
  running _ := List.nil_suffix
  shrink := by
    intro mode k k' h _ hhandlers hk
    cases mode with
    | choosing => exact h.elim
    | ended => trivial
    | running => exact h.extend (hk.handlers ▸ List.suffix_rfl) (hk.handlers ▸ hhandlers)
  stuck _ := trivial

theorem Begins.sites (hstart : Begins before base start) (hroom : before.sp ≤ Capacity.stack)
    (htrace : Trace host start cs c)
    (hcs : ∀ x ∈ cs, ¬ x.Resets host ∧ ¬ x.Ended start.pending) :
    c.Layers [] (Sites base start.pending cs) start.pending := by
  obtain ⟨ip, fs, hcontrol, hfloor, hcontext⟩ := hstart.floor
  refine (htrace.induct (I := fun xs x => x.state.context.sp ≤ Capacity.stack ∧
    x.Layers [] (Sites base start.pending xs) start.pending) ⟨?_, [], rfl, ?_⟩ hcs ?_).2
  · rw [hcontext]
    exact hroom
  · rw [hcontrol, hcontext]
    refine ⟨rfl, ?_⟩
    intro h hs hsuffix hle
    have hlong := hsuffix.length_le
    rw [hfloor.handlers_eq] at hle
    exact absurd hlong (Nat.not_le_of_lt (Nat.lt_succ_of_le hle))
  · rintro xs x y ⟨hcalm, hgoing⟩ ⟨hsp, hlayers⟩ hstep
    have hmoves := moves_of_step hstep hcalm hsp
    refine ⟨hmoves.sp_le hsp, hlayers.step hmoves (by simp) (hlayers.stays (fun _ h => h) hgoing)
      (Sites.carries _ _ _ _) ?_⟩
    intro b op hp hsites heffect
    rcases heffect.control_cases with ⟨ip, hcontrol⟩ | ⟨result, hcontrol⟩
    · rw [hcontrol] at heffect ⊢
      rcases heffect.handlers_cases with hfewer | ⟨rfl, e, hmore⟩
      · exact hsites.extend hfewer hfewer
      · obtain ⟨rfl, hsites⟩ := hsites
        refine ⟨rfl, ?_⟩
        intro h hs hsuffix hle
        rw [hmore] at hsuffix
        rcases List.suffix_cons_iff.mp hsuffix with heq | hsuffix
        · cases heq
          exact ⟨xs, x, [], rfl, installs_of_step hp hstep hsp hmore, rfl, by simp⟩
        · exact (Sites.extend ⟨rfl, hsites⟩ List.suffix_rfl List.suffix_rfl).2 h hs hsuffix hle
    · rw [hcontrol]
      trivial

theorem Begins.retired (xs : List Config) (hstart : Begins before base start)
    (hroom : before.sp ≤ Capacity.stack) (htrace : Trace host start (xs ++ cs) c)
    (hcs : ∀ x ∈ xs ++ cs, ¬ x.Resets host ∧ ¬ x.Ended start.pending)
    (hp : c.Performs base start.pending op)
    (hgone : ∀ x ∈ cs, c.state.context.handlers.length ≤ x.state.context.handlers.length) :
    Retired base start.pending cs := by
  rintro xs₁ x xs₂ h rfl hx
  have hmem : x ∈ xs ++ (xs₁ ++ x :: xs₂) := by simp
  obtain ⟨fs, hfloor, hsp, hlayers⟩ := hstart.layers_of_mem hroom htrace hcs hmem
  have hown : base.handlers ≤ x.state.context.handlers.length := by
    rw [hfloor.handlers_eq]
    exact (hlayers.suffix hfloor).2.length_le
  rw [← List.append_assoc] at htrace hcs
  obtain ⟨-, y, hstep, hlast⟩ := htrace.split
  refine hx.retired hstep hlast hsp hown ?_ hp (hgone x (by simp))
  intro z hz
  exact hcs z (List.mem_append_right _ (List.mem_cons_of_mem _ hz))

end Config

theorem keepOldest_min_length {α : Type} (n : Nat) (xs : List α) :
    keepOldest (min n xs.length) xs = keepOldest n xs := by
  unfold keepOldest
  congr 1
  omega

/-- Raising an exception is never fatal. It goes to the handler that the run installed last and has
not removed since: the run goes on where the handler says, in the call that installed it, with the
handlers that it found then and the exception on top of what is left of the values that were there
then; all of them are left if none was taken. Without such a handler the run ends with the
exception. -/
theorem exception_delivered {host : Host} {before : Context} {base : Base} {start c : Config}
    {cs : List Config} {v : Value} {s : State} (hbefore : before.Reachable host)
    (hstart : Config.Begins before base start) (htrace : Config.Trace host start cs c)
    (hcs : ∀ x ∈ cs, ¬ x.Resets host ∧ ¬ x.Ended start.pending)
    (hraises : c.Raises base start.pending v s) :
    ∃ d, Config.step host c = some d ∧ d.pending = start.pending ∧
      ((Config.Retired base start.pending cs ∧ d.control = .exited (.ok (.raised v)) ∧
          d.state.context.frames = before.frames ∧ d.state.context.handlers = before.handlers) ∨
        ∃ cs₁ c₀ cs₂ h, cs = cs₁ ++ c₀ :: cs₂ ∧ c₀.Installs base start.pending h ∧
          (∀ x ∈ cs₂, h :: c₀.state.context.handlers <:+ x.state.context.handlers) ∧
          Config.Retired base start.pending cs₂ ∧
          d.control = .run base h.catchIp ∧
          c.state.context.handlers = h :: d.state.context.handlers ∧
          d.state.context.handlers = c₀.state.context.handlers ∧
          d.state.context.depth = h.frames ∧ d.state.context.frames = c₀.state.context.frames ∧
          d.state.context.stack = v :: keepOldest (min h.sp s.context.sp) s.context.stack ∧
          ((∀ x ∈ cs₂ ++ [c], ∀ p < h.sp, ¬ x.Removes p) →
            d.state.context.stack = v :: c₀.state.context.stack)) := by
  obtain ⟨fs, hfloor, hroom, hlayers⟩ := hstart.layers hbefore.sp_le htrace hcs
  have hsites := hstart.sites hbefore.sp_le htrace hcs
  obtain ⟨op, hp⟩ := hraises.performs
  obtain ⟨-, hover⟩ := hlayers.performs hp
  obtain ⟨-, hsites⟩ := hsites.performs hp
  obtain ⟨htrade, hlt⟩ := hraises.traded hroom
  obtain ⟨pos, next, hstep⟩ := hraises.step host
  cases hown : Exec.ownHandler? base s.context with
  | none =>
    have hfew := Exec.ownHandler?_eq_none_iff.mp hown
    rw [htrade.handlers, hfloor.handlers_eq] at hfew
    have hhandlers : before.handlers = c.state.context.handlers :=
      hover.handlers_suffix.eq_of_length_le hfew
    rw [Config.proceed_uncaught hown] at hstep
    refine ⟨_, hstep, rfl, Or.inl ⟨?_, rfl, ?_, ?_⟩⟩
    · refine hstart.retired [] hbefore.sp_le htrace hcs hp fun x hx => ?_
      obtain ⟨_, hfloor', -, hlayers'⟩ := hstart.layers_of_mem hbefore.sp_le htrace hcs hx
      rw [← hhandlers]
      exact (hlayers'.suffix hfloor').2.length_le
    · rw [Context.frames_abandon, htrade.frames]
      exact keepOldest_eq_of_suffix (hfloor.suffix.trans hover.frames_suffix)
        hfloor.frames_eq.symm
    · rw [Context.handlers_abandon, htrade.handlers, hhandlers]
  | some h =>
    obtain ⟨hs, hnewest, hle⟩ := Exec.ownHandler?_eq_some_iff.mp hown
    rw [Config.proceed_caught hown hlt, hnewest, List.tail_cons] at hstep
    rw [htrade.handlers] at hnewest
    obtain ⟨cs₁, c₀, cs₂, rfl, hinstalls, rfl, hsince⟩ :=
      hsites h hs (hnewest ▸ List.suffix_rfl) hle
    obtain ⟨-, y, hy, hlast⟩ := htrace.split
    obtain ⟨hframes, hsp, -⟩ := hinstalls.step hy
    have hmem : c₀ ∈ cs₁ ++ c₀ :: cs₂ := by simp
    obtain ⟨_, -, hroom₀, -⟩ := hstart.layers_of_mem hbefore.sp_le htrace hcs hmem
    have hcs₂ : ∀ x ∈ cs₂, ¬ x.Resets host ∧ ¬ x.Ended start.pending := fun x hx =>
      hcs x (List.mem_append_right _ (List.mem_cons_of_mem _ hx))
    have hstretch : ∀ kept, kept <:+ c₀.state.context.stack →
        (∀ x ∈ cs₂, ∀ p < kept.length, ¬ x.Removes p) →
        c.state.context.Over kept c₀.state.context.frames
          (h :: c₀.state.context.handlers) := fun kept hkept hremoves =>
      hinstalls.over hy hlast hroom₀ hle hcs₂ hkept hremoves hsince (hnewest ▸ List.suffix_rfl) hp
    have hover₀ := hstretch [] List.nil_suffix (by simp)
    have hback : keepOldest h.frames s.context.frames = c₀.state.context.frames := by
      rw [htrade.frames]
      exact keepOldest_eq_of_suffix hover₀.frames_suffix hframes.symm
    refine ⟨_, hstep, rfl, Or.inr ⟨cs₁, c₀, cs₂, h, rfl, hinstalls, hsince, ?_, rfl, hnewest, rfl,
      ?_, hback, ?_, ?_⟩⟩
    · rw [List.append_cons] at htrace hcs
      refine hstart.retired _ hbefore.sp_le htrace hcs hp fun x hx => ?_
      rw [hnewest]
      exact (hsince x hx).length_le
    · rw [Context.depth, hback, hframes]
      rfl
    · rw [Context.sp, keepOldest_min_length]
    · intro hremoves
      rw [hsp] at hremoves ⊢
      have hkept := hstretch _ List.suffix_rfl fun x hx =>
        hremoves x (List.mem_append_left _ hx)
      have hn := Config.le_of_not_removes (hremoves c (by simp)) hkept.stack.length_le
      exact congrArg (v :: ·) (keepOldest_eq_of_suffix (htrade.suffix hkept.stack hn) rfl)

theorem exception_delivered_sample :
    Context.leftover.Reachable Host.none ∧
    ∃ cs s, Config.Trace Host.none (Machine.sample.runConfig .leftover 0) cs (Config.sample 9) ∧
      (Config.sample 9).Raises ⟨1, 1, false⟩ [] (.bool true) s ∧
      ∃ cs₁ c₀ cs₂ h, cs = cs₁ ++ c₀ :: cs₂ ∧ c₀.Installs ⟨1, 1, false⟩ [] h ∧
        Config.Retired ⟨1, 1, false⟩ [] cs₂ ∧
        (Config.sample 10).control = .run ⟨1, 1, false⟩ h.catchIp ∧
        (Config.sample 10).state.context.frames = c₀.state.context.frames ∧
        (Config.sample 10).state.context.handlers = c₀.state.context.handlers ∧
        (Config.sample 10).state.context.stack = .bool true :: c₀.state.context.stack := by
  have htrace : Config.Trace Host.none (Machine.sample.runConfig .leftover 0) _
      (Config.sample 9) := Config.trace_path Host.none 9 _
  have hraises : (Config.sample 9).Raises ⟨1, 1, false⟩ [] (.bool true)
      { (Config.sample 9).state with
        context := { (Config.sample 9).state.context with stack := [.null] } } :=
    .instr (i := ⟨.throw, ()⟩) (s := (Config.sample 9).state) rfl rfl
  have hstep : Config.step Host.none (Config.sample 9) = some (Config.sample 10) := rfl
  have hnewest : (Config.sample 9).state.context.handlers = [⟨10, 1, 1⟩, ⟨19, 0, 0⟩] := rfl
  have hremoves : ∀ x ∈ (Config.path Host.none 9 (Machine.sample.runConfig .leftover 0)).1 ++
      [Config.sample 9], ∀ p < 1, ¬ x.Removes p := by decide
  obtain ⟨d, hd, -, hcase⟩ := exception_delivered Context.reachable_leftover
    (.outer Machine.sample .leftover 0) htrace (Config.calm_of_path (by decide) _) hraises
  cases hstep.symm.trans hd
  rcases hcase with ⟨-, hcontrol, -⟩ | ⟨cs₁, c₀, cs₂, h, hcs, hinstalls, -, hretired, hcontrol,
    hhandlers, hback, -, hframes, -, hstack⟩
  · have hrun : (Config.sample 10).control = .run ⟨1, 1, false⟩ 10 := rfl
    rw [hrun] at hcontrol
    cases hcontrol
  · rw [hnewest] at hhandlers
    cases hhandlers
    refine ⟨Context.reachable_leftover, _, _, htrace, hraises, cs₁, c₀, cs₂, _, hcs, hinstalls,
      hretired, hcontrol, hframes, hback, hstack fun x hx => hremoves x ?_⟩
    rw [hcs]
    simp only [List.mem_append, List.mem_cons] at hx ⊢
    tauto

end StackVM
