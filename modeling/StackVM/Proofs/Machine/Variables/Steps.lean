import StackVM.Proofs.Machine.Variables.Assignments

/-! # Variables and the steps that bind them

`Varies` lists what a step can do to variables: nothing, but for frames it drops; an assignment to
one cell of the current frame; a closure over the current frame; a new frame with cells of its own.
-/
namespace StackVM
namespace Exec
variable {s s' : State} {pos next : Nat} {base : Base} {f : Frame} {a : Address} {r : LocalsRef}
  {v : Value}

theorem makeClosure_ends (pos next : Nat) (e : EntryPoint) (s : State) :
    Ends s (fun step s' => step = .next ∧ s.Captured s') (makeClosure pos next e) := by
  unfold makeClosure
  split
  next => exact State.KeepsScopes.refl s
  next =>
    refine .read (reads_jumpTarget e.offset) fun entry _ => ?_
    refine .read (reads_top e.params.toNat) fun declared _ => ?_
    refine .read (reads_mapM reads_paramType declared) fun paramTypes _ => ?_
    let taken : State :=
      { s with context := { s.context with stack := s.context.stack.drop e.params.toNat } }
    by_cases hroom : taken.context.sp < Capacity.stack
    · simp only [Ends, bind_apply, discard, context, pushNew]
      rw [if_pos (by exact hroom)]
      exact ⟨rfl, rfl, rfl, ⟨_, rfl, rfl⟩, rfl⟩
    · simp only [Ends, bind_apply, discard, context, pushNew]
      rw [if_neg (by exact hroom)]
      exact .of_eq rfl rfl

/-- What an instruction that succeeds binds. -/
inductive Bound (i : Instr) (s : State) : Step → State → Prop
  | nothing {step : Step} {s' : State} : s.KeepsScopes s' → Bound i s step s'
  | assigned {a : Address} {f : Frame} {fs : List Frame} {k : Cell} {v : Value} {s' : State} :
      i.assigns? = some a → s.context.frames = f :: fs → f.cell? s.machine.store a = some k →
      s.Assigned k v s' → Bound i s .next s'
  | captured {e : EntryPoint} {s' : State} : i = ⟨.makeClosure, e⟩ → s.Captured s' →
      Bound i s .next s'

theorem instr_ends (base : Base) (pos next : Nat) (i : Instr) (s : State) :
    Ends s (Bound i s) (instr base pos next i) := by
  cases hbinds : binds i.opcode with
  | false => exact (instr_keeps hbinds).ends fun _ _ => .nothing
  | true =>
    have hassigns : ∀ a, i.assigns? = some a → Ends s (Bound i s) (instr base pos next i) := by
      intro a ha
      refine (instr_assigns ha s).mono fun step s' hend => ?_
      rcases hend with hkeeps | ⟨rfl, k, v, ⟨f, fs, hf, hk⟩, hassigned⟩
      · exact .nothing hkeeps
      · exact .assigned ha hf hk hassigned
    obtain ⟨op, x⟩ := i
    cases op with
    | makeClosure =>
      refine (makeClosure_ends pos next x s).mono fun step s' hend => ?_
      obtain ⟨rfl, hcaptured⟩ := hend
      exact .captured rfl hcaptured
    | storeLocal | defLocalFun | storeUpvar | defUpvarFun => exact hassigns _ rfl
    | _ => cases hbinds

end Exec

namespace Config
variable {host : Host} {base : Base} {pos next count : Nat} {p : List Pending} {s s' : State}
  {r : ClosureRef}

theorem pushFrame_entered (hdepth : s.context.depth < Capacity.frames) (r : ClosureRef)
    (args : List Value) (pos returnIp savedSp : Nat) :
    ∃ g s', Exec.pushFrame pos (s.machine.store.closure r) args returnIp savedSp s = .ok () s' ∧
      s.Entered r g s' := by
  simp only [Exec.pushFrame, Exec.bind_apply, Exec.requireFrame, if_pos hdepth]
  exact ⟨_, _, rfl, rfl, rfl, rfl, ⟨_, rfl⟩, rfl⟩

theorem enter_entered {step : Step} (h : enter pos next count r s = .ok step s') :
    ∃ g, s.Entered r g s' := by
  obtain ⟨-, hcount, hdepth, -⟩ := enter_eq_ok h
  simp only [enter, Exec.bind_apply, Exec.store, Exec.requireFrame, if_pos hdepth,
    Exec.popN_apply hcount, Exec.context, Exec.pushFrame] at h
  rw [if_pos (by exact hdepth)] at h
  cases h
  exact ⟨_, rfl, rfl, rfl, ⟨_, rfl⟩, rfl⟩

/-- What a step can do to variables. -/
inductive Varies (c d : Config) : Prop
  | keep : c.state.KeepsScopes d.state → Varies c d
  | assign {i : Instr} {a : Address} {f : Frame} {fs : List Frame} {k : Cell} {v : Value} :
      c.Fetches i → i.assigns? = some a → c.state.context.frames = f :: fs →
      f.cell? c.state.machine.store a = some k → c.state.Assigned k v d.state → Varies c d
  | capture {e : EntryPoint} : c.Fetches ⟨.makeClosure, e⟩ → c.state.Captured d.state → Varies c d
  | enter {r : ClosureRef} {g : Frame} : c.control = .dispatched (.ok (.enter r)) →
      c.state.Entered r g d.state → Varies c d

theorem proceed_ok_keeps (step : Step) (s : State) :
    s.KeepsScopes (proceed base pos next p (.ok step s)).state := by
  cases step with
  | raise exception =>
    have hunwind : Exec.Keeps (Exec.unwind base pos exception) := Exec.unwind_keeps exception
    have hkeeps := hunwind s
    cases hout : Exec.unwind base pos exception s with
    | error f t =>
      rw [Exec.left_eq_of_error hout] at hkeeps
      simpa only [proceed, hout] using hkeeps
    | ok u t =>
      rw [Exec.left_eq_of_ok hout] at hkeeps
      cases u <;> simpa only [proceed, hout] using hkeeps
  | _ => exact .refl s

theorem fetch_varies (base : Base) (ip : Nat) (p : List Pending) (s : State) :
    Varies ⟨.run base ip, p, s⟩ (fetch base ip p s) := by
  unfold fetch
  cases hdecode : s.machine.program.decodeAt ip with
  | error e => exact .keep (.refl s)
  | ok found =>
    obtain ⟨i, next⟩ := found
    have hfetches : Fetches ⟨.run base ip, p, s⟩ i := ⟨base, ip, next, rfl, hdecode⟩
    have hends := Exec.instr_ends base ip next i s
    dsimp only
    cases hres : Exec.instr base ip next i s with
    | error f s' => exact .keep (hends.error hres)
    | ok step s' =>
      cases hends.ok hres with
      | nothing hkeeps => exact .keep (hkeeps.trans (proceed_ok_keeps step s'))
      | assigned ha hf hk hassigned => exact .assign hfetches ha hf hk hassigned
      | captured hi hcaptured =>
        cases hi
        exact .capture hfetches hcaptured

theorem act_keeps (p : List Pending) (a : Action) (s : State) :
    s.KeepsScopes (act p a s).state := by
  induction a generalizing s with
  | done result => exact .refl s
  | fault f => exact .refl s
  | edit e resume ih =>
    simp only [act]
    exact (State.KeepsScopes.withStore s fun st => (st.sameFixed_apply e).sameScopes).trans (ih _ _)
  | call callee args resume ih =>
    cases callee with
    | func f => exact .refl s
    | _ =>
      simp only [act]
      exact (State.KeepsScopes.withStore s fun st => .newHash st _).trans (ih _ _ _)
  | define native resume ih =>
    have hdefine : s.KeepsScopes { s with machine := (s.machine.defineNative native).2 } :=
      ⟨List.suffix_refl _, s.machine.sameScopes_defineNative native⟩
    exact hdefine.trans (ih _ _)
  | reset resume ih =>
    have hreset : s.KeepsScopes { s with context := .new } := ⟨List.nil_suffix, .refl _⟩
    exact hreset.trans (ih _)

theorem dispatch_keeps (callee : Function) (args : List Value) :
    s.KeepsScopes (dispatch host callee args p s).state := by
  cases callee with
  | closure r =>
    simp only [dispatch]
    split <;> exact .refl s
  | native r =>
    simp only [dispatch]
    split
    next run _ => exact .withStore s fun st => ((run st args).sameFixed_perform st).sameScopes
    next run _ => exact act_keeps p (run s args) s
  | chain r =>
    simp only [dispatch, tryNext_state]
    exact .refl s

theorem finishCall_varies {callee : Function} (d : Dispatch) :
    Varies ⟨.dispatched (.ok d), .call base pos next count callee :: p, s⟩
      (proceed base pos next p (finishCall pos next count callee d s)) := by
  cases d with
  | enter r =>
    rw [finishCall]
    cases hres : enter pos next count r s with
    | ok step s' =>
      obtain ⟨rfl, -⟩ := enter_eq_ok hres
      obtain ⟨g, hentered⟩ := enter_entered hres
      exact .enter rfl hentered
    | error f s' =>
      cases enter_eq_error hres
      exact .keep (.refl s)
  | settled result =>
    have hkeeps : Exec.Keeps (finishCall pos next count callee (.settled result)) := by
      have hdiscard := Exec.discard_keeps (count + 1)
      cases result with
      | ok v => exact hdiscard.bind fun _ => (Exec.push_keeps v).bind fun _ => .pure _
      | exception v => exact hdiscard.bind fun _ => .pure _
      | failed why =>
        exact hdiscard.bind fun _ =>
          (Exec.create_keeps fun st => .newHash st _).bind fun _ => .pure _
    have hleft := hkeeps s
    cases hres : finishCall pos next count callee (.settled result) s with
    | ok step s' =>
      rw [Exec.left_eq_of_ok hres] at hleft
      exact .keep (hleft.trans (proceed_ok_keeps step s'))
    | error f s' =>
      rw [Exec.left_eq_of_error hres] at hleft
      exact .keep hleft

theorem runClosure_varies (args : List Value) (resume : Resume) :
    Varies ⟨.dispatched (.ok (.enter r)), .native args resume :: p, s⟩
      (runClosure r args resume p s) := by
  unfold runClosure
  dsimp only
  by_cases hdepth : s.context.depth < Capacity.frames
  · obtain ⟨g, s', hpush, hentered⟩ := pushFrame_entered hdepth r args
      (s.machine.store.closure r).entry (s.machine.store.closure r).entry s.context.sp
    rw [hpush]
    exact .enter rfl hentered
  · rw [pushFrame_eq_error hdepth]
    exact .keep (act_keeps p _ s)

theorem deliver_varies {result : Except Fault Dispatch} {work : Pending} {d : Config}
    (h : deliver result work p s = some d) : Varies ⟨.dispatched result, work :: p, s⟩ d := by
  unfold deliver at h
  split at h
  next => cases h; exact .keep (by rw [tryNext_state]; exact .refl s)
  next => cases h; exact .keep (by rw [tryNext_state]; exact .refl s)
  next => cases h; exact .keep (.refl s)
  next => cases h; exact .keep (act_keeps p _ s)
  next => cases h; exact .keep (act_keeps p _ s)
  next => cases h; exact runClosure_varies _ _
  next => cases h; exact .keep (.refl s)
  next => cases h; exact finishCall_varies _
  next => cases h

theorem finishRun_keeps (base : Base) (savedSp entry : Nat) (s : State)
    (result : Except Fault Exit) :
    s.KeepsScopes (finishRun base savedSp entry s result).2 := by
  have hrestore : s.KeepsScopes (restore base savedSp s) := ⟨keepOldest_suffix _ _, .refl _⟩
  rcases result with f | e
  · exact hrestore
  · cases e with
    | halted v => exact hrestore
    | returned v | raised v => exact .refl s

theorem varies_of_step {c d : Config} (h : step host c = some d) : c.Varies d := by
  obtain ⟨control, p, s⟩ := c
  cases control with
  | run base ip =>
    cases h
    exact fetch_varies base ip p s
  | dispatch callee args =>
    cases h
    exact .keep (dispatch_keeps callee args)
  | dispatched result =>
    cases p with
    | nil => cases h
    | cons work rest => exact deliver_varies h
  | exited result =>
    cases p with
    | nil => cases h
    | cons work rest =>
      cases work with
      | nested base savedSp entry resume =>
        cases h
        exact .keep ((finishRun_keeps base savedSp entry s result).trans (act_keeps rest _ _))
      | _ => cases h

/-- A frame is pushed for a closure that is entered, and for nothing else. -/
theorem Varies.entered {c d : Config} {g : Frame} (h : c.Varies d)
    (hframes : d.state.context.frames = g :: c.state.context.frames) :
    ∃ r, c.control = .dispatched (.ok (.enter r)) ∧ c.state.Entered r g d.state := by
  have hmore : ¬ d.state.context.frames <:+ c.state.context.frames := by
    intro hsuffix
    have hle := hsuffix.length_le
    rw [hframes, List.length_cons] at hle
    omega
  cases h with
  | keep hkeeps => exact absurd hkeeps.frames hmore
  | assign _ _ _ _ hassigned => exact absurd (hassigned.frames ▸ List.suffix_rfl) hmore
  | capture _ hcaptured => exact absurd (hcaptured.frames ▸ List.suffix_rfl) hmore
  | enter hchosen hentered =>
    rw [hentered.frames] at hframes
    cases hframes
    exact ⟨_, hchosen, hentered⟩

end Config
end StackVM
