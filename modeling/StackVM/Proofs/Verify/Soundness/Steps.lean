import StackVM.Host.Probe
import StackVM.Proofs.Machine.Reach
import StackVM.Proofs.Machine.Relay
import StackVM.Proofs.Verify.Intact

/-! # Steps of verified programs

At every point of a run of a verified program, inside natives and nested runs too, the program is
the verified one up to the operands of global accesses, and every run in progress stands at an
instruction of it or at its end. A step keeps this, or ends in a fault that is excused.
-/
namespace StackVM

/-- What a fault can be in a run that starts at `start` with the verified program `p`. -/
def Fault.Excused (p : Program) (host : Host) (start : Config) (f : Fault) : Prop :=
  match f.cause with
  | .invalidOpcode _ | .truncatedOperand _ | .invalidText | .jumpOutOfRange _
  | .invalidClosure _ _ => False
  | .ipOutOfRange => f.pos = p.size
  | .invalidPatch target =>
    ∃ c base next n below, start.Reaches host c ∧ c.control = .run base f.pos ∧
      c.state.machine.program.decodeAt f.pos = .ok (⟨.patch, target⟩, next) ∧
      c.state.context.stack = .int n :: below ∧ ¬ (0 ≤ n.toInt ∧ n.toInt ≤ 65535)
  | _ => True

section Excused
variable {p : Program} {host : Host} {start : Config}

theorem Fault.excused_of_ordinary {f : Fault} (h : f.cause.blamesCode = false) :
    f.Excused p host start := by
  obtain ⟨pos, cause⟩ := f
  cases cause with
  | invalidOpcode | truncatedOperand | invalidText | ipOutOfRange | jumpOutOfRange | invalidPatch
  | invalidClosure => cases h
  | _ => trivial

theorem Fault.excused_of_misfit {c : Config} {base : Base} {pos next : Nat} {i : Instr}
    {f : Fault} (hc : start.Reaches host c) (hcontrol : c.control = .run base pos)
    (hdecode : c.state.machine.program.decodeAt pos = .ok (i, next))
    (h : Misfit pos i c.state f) : f.Excused p host start := by
  obtain ⟨target, n, below, rfl, rfl, hstack, hn⟩ := h
  exact ⟨c, base, next, n, below, hc, hcontrol, hdecode, hstack, hn⟩

end Excused

namespace Config

/-- Where the runs in progress stand: the innermost one, and those that wait for a call. -/
def pointers (c : Config) : List Nat :=
  (match c.control with
    | .run _ ip => [ip]
    | _ => []) ++
  c.pending.flatMap fun
    | .call _ pos next _ _ => [pos, next]
    | _ => []

variable (p : Program) (l : List (Nat × Instr)) (known : Fault → Prop)

/-- What is going on keeps to the code and to the faults that are known. -/
def ControlFits : Control → Prop
  | .run _ ip => Landing p l ip
  | .dispatched (.error f) => known f
  | .exited (.error f) => known f
  | _ => True

def PendingFits : Pending → Prop
  | .call _ pos next _ _ => pos ∈ l.map Prod.fst ∧ Landing p l next
  | .overloads _ _ _ => True
  | .native _ resume => RelaysAfter known resume
  | .nested _ _ _ resume => RelaysAfter known resume

/-- The invariant of a run of a verified program. -/
structure Sound (c : Config) : Prop where
  state : Intact p l c.state.skeleton
  control : ControlFits p l known c.control
  pending : ∀ w ∈ c.pending, PendingFits p l known w

variable {p l known} {pending : List Pending} {s : State}

theorem Sound.pointers {c : Config} (h : Sound p l known c) {ip : Nat} (hip : ip ∈ c.pointers) :
    Landing p l ip := by
  rcases List.mem_append.mp hip with hip | hip
  · have hcontrol := h.control
    split at hip
    next base ip' hrun =>
      rw [hrun] at hcontrol
      cases List.mem_singleton.mp hip
      exact hcontrol
    next => cases hip
  · obtain ⟨w, hw, hip⟩ := List.mem_flatMap.mp hip
    have hfits := h.pending w hw
    split at hip
    next =>
      rcases List.mem_pair.mp hip with rfl | rfl
      · exact Or.inl hfits.1
      · exact hfits.2
    next => cases hip

theorem act_sound {a : Action} (ha : a.Relays known) (hs : Intact p l s.skeleton)
    (hw : ∀ w ∈ pending, PendingFits p l known w) : Sound p l known (act pending a s) := by
  induction a generalizing s with
  | done result => exact ⟨hs, trivial, hw⟩
  | fault f => exact ⟨hs, ha, hw⟩
  | edit e resume ih =>
    have hsk := s.skeleton_withStore fun st => (st.sameFixed_apply e).closures
    exact ih _ (ha _) (hsk ▸ hs)
  | call callee args resume ih =>
    have hresume : RelaysAfter known resume := ha.resume
    cases callee with
    | func f => exact ⟨hs, trivial, List.forall_mem_cons.mpr ⟨hresume, hw⟩⟩
    | _ =>
      refine ih _ _ (hresume _ _ ?_) hs
      intro f hf
      cases hf
  | define native resume ih =>
    have hsk := s.machine.skeleton_defineNative s.context native
    exact ih _ (ha _) (hsk ▸ hs)
  | reset resume ih =>
    refine ih ha (hs.keepFrames ?_ ?_)
    · intro f hf
      cases hf
    · intro h hh
      cases hh

section Resume
variable {resume : Except Fault MethodResult → State → Action}

theorem resume_ok_sound (hresume : RelaysAfter known resume) (hs : Intact p l s.skeleton)
    (hw : ∀ w ∈ pending, PendingFits p l known w) (result : MethodResult) (seen : State) :
    Sound p l known (act pending (resume (.ok result) seen) s) := by
  refine act_sound (hresume _ _ ?_) hs hw
  intro f hf
  cases hf

theorem resume_error_sound (hresume : RelaysAfter known resume) (hs : Intact p l s.skeleton)
    (hw : ∀ w ∈ pending, PendingFits p l known w) {f : Fault} (hf : known f) (seen : State) :
    Sound p l known (act pending (resume (.error f) seen) s) := by
  refine act_sound (hresume _ _ ?_) hs hw
  intro g hg
  cases hg
  exact hf

end Resume

theorem tryNext_sound (missing : Bool) (args : List Value) (overloads : List Function)
    (hs : Intact p l s.skeleton) (hw : ∀ w ∈ pending, PendingFits p l known w) :
    Sound p l known (tryNext missing args pending s overloads) := by
  cases overloads with
  | nil => exact ⟨hs, trivial, hw⟩
  | cons f rest => exact ⟨hs, trivial, List.forall_mem_cons.mpr ⟨trivial, hw⟩⟩

theorem dispatch_sound {host : Host} (hhost : host.RelaysFaults) (callee : Function)
    (args : List Value) (hs : Intact p l s.skeleton)
    (hw : ∀ w ∈ pending, PendingFits p l known w) :
    Sound p l known (dispatch host callee args pending s) := by
  cases callee with
  | closure r =>
    unfold dispatch
    dsimp only
    split
    · exact ⟨hs, trivial, hw⟩
    · exact ⟨hs, trivial, hw⟩
  | native r =>
    unfold dispatch
    dsimp only
    split
    next run hrun =>
      have hsk := s.skeleton_withStore fun st => ((run st args).sameFixed_perform st).closures
      exact ⟨hsk ▸ hs, trivial, hw⟩
    next run hrun =>
      have hrelays := NativeCode.body_relays hhost hrun s args
      exact act_sound (hrelays.mono fun f hf => hf.elim) hs hw
  | chain r => exact tryNext_sound _ _ _ hs hw

section Runs
variable (hordinary : ∀ f : Fault, f.cause.blamesCode = false → known f) (hv : Verified p l)
  {base : Base} {pos next count : Nat} {callee : Function}
  {resume : Except Fault MethodResult → State → Action}

include hordinary in
theorem proceed_sound {r : EStateM.Result Fault State Step} (hpos : pos ∈ l.map Prod.fst)
    (hnext : Landing p l next) (hw : ∀ w ∈ pending, PendingFits p l known w)
    (hr : Exec.Kept (Intact p l) pos (Step.Lands (Landing p l)) r) :
    Sound p l known (proceed base pos next pending r) := by
  cases r with
  | error f s => exact ⟨hr.1, hordinary f hr.2.2, hw⟩
  | ok step s =>
    obtain ⟨hs, hlands⟩ := hr
    cases step with
    | next => exact ⟨hs, hnext, hw⟩
    | jump target => exact ⟨hs, hlands, hw⟩
    | exit e => exact ⟨hs, trivial, hw⟩
    | invoke callee args =>
      exact ⟨hs, trivial, List.forall_mem_cons.mpr ⟨⟨hpos, hnext⟩, hw⟩⟩
    | raise exception =>
      unfold proceed
      dsimp only
      split
      next ip s' heq =>
        obtain ⟨hs', hip⟩ := unwind_intact.ok hs heq
        exact ⟨hs', hip, hw⟩
      next v s' heq =>
        obtain ⟨hs', -⟩ := unwind_intact.ok hs heq
        exact ⟨hs', trivial, hw⟩
      next f s' heq =>
        obtain ⟨hs', -, hf⟩ := unwind_intact.error hs heq
        exact ⟨hs', hordinary f hf, hw⟩

theorem pushFrame_intact {c : Closure} {args : List Value} {returnIp savedSp : Nat}
    (hreturn : Landing p l returnIp) :
    Exec.Safe (Intact p l) pos (fun _ => True) (Exec.pushFrame pos c args returnIp savedSp) := by
  refine Exec.pushFrame_safe ?_
  intro sk locals hsk
  exact hsk.pushFrame hreturn

include hv in
theorem enter_intact {r : ClosureRef} (hnext : Landing p l next) (hs : Intact p l s.skeleton) :
    Exec.Kept (Intact p l) pos (Step.Lands (Landing p l)) (enter pos next count r s) := by
  have hentry : Landing p l (s.machine.store.closure r).entry := Or.inl (hs.entry_mem hv r)
  unfold enter
  rw [Exec.bind_apply]
  refine Exec.requireFrame_safe.andThen (fun _ => ?_) s hs
  refine (Exec.popN_safe (count + 1)).andThen fun values => ?_
  refine Exec.context_safe.andThen fun ctx => ?_
  exact (pushFrame_intact hnext).andThen fun _ => .pure hentry

include hv in
theorem finishCall_intact (hnext : Landing p l next) (hs : Intact p l s.skeleton) (d : Dispatch) :
    Exec.Kept (Intact p l) pos (Step.Lands (Landing p l))
      (finishCall pos next count callee d s) := by
  cases d with
  | enter r => exact enter_intact hv hnext hs
  | settled result =>
    cases result with
    | ok v =>
      refine (Exec.discard_safe (count + 1)).andThen (fun _ => ?_) s hs
      exact (Exec.push_safe v).andThen fun _ => Exec.return_next_safe
    | exception v => exact (Exec.discard_safe (count + 1)).andThen (fun _ => .pure trivial) s hs
    | failed why =>
      refine (Exec.discard_safe (count + 1)).andThen (fun _ => ?_) s hs
      exact (Exec.create_safe fun st => rfl).andThen fun _ => .pure trivial

include hordinary hv in
theorem runClosure_sound {r : ClosureRef} {args : List Value}
    (hresume : RelaysAfter known resume) (hs : Intact p l s.skeleton)
    (hw : ∀ w ∈ pending, PendingFits p l known w) :
    Sound p l known (runClosure r args resume pending s) := by
  have hentry : Landing p l (s.machine.store.closure r).entry := Or.inl (hs.entry_mem hv r)
  unfold runClosure
  dsimp only
  split
  next s' heq =>
    obtain ⟨hs', -⟩ := (pushFrame_intact hentry).ok hs heq
    exact ⟨hs', hentry, List.forall_mem_cons.mpr ⟨hresume, hw⟩⟩
  next f s' heq =>
    obtain ⟨hs', -, hf⟩ := (pushFrame_intact hentry).error hs heq
    exact resume_error_sound hresume hs' hw (hordinary f hf) s'

include hordinary in
theorem finishRun_sound {savedSp entry : Nat} {result : Except Fault Exit}
    (hresult : ControlFits p l known (.exited result)) (hresume : RelaysAfter known resume)
    (hs : Intact p l s.skeleton) (hw : ∀ w ∈ pending, PendingFits p l known w) :
    Sound p l known (act pending
      (resume (finishRun base savedSp entry s result).1 (finishRun base savedSp entry s result).2)
      (finishRun base savedSp entry s result).2) := by
  have hrestore : Intact p l (restore base savedSp s).skeleton :=
    hs.keepFrames (fun _ => mem_of_mem_keepOldest) fun _ => mem_of_mem_keepOldest
  cases result with
  | error f => exact resume_error_sound hresume hrestore hw hresult _
  | ok exit =>
    cases exit with
    | halted v => exact resume_error_sound hresume hrestore hw (hordinary _ rfl) _
    | returned v | raised v => exact resume_ok_sound hresume hs hw _ s

include hordinary hv in
theorem deliver_sound {result : Except Fault Dispatch} {work : Pending} {rest : List Pending}
    {d : Config} (hresult : ControlFits p l known (.dispatched result))
    (hwork : PendingFits p l known work) (hs : Intact p l s.skeleton)
    (hw : ∀ w ∈ rest, PendingFits p l known w)
    (h : deliver result work rest s = some d) : Sound p l known d := by
  unfold deliver at h
  split at h
  next => cases h; exact tryNext_sound _ _ _ hs hw
  next => cases h; exact tryNext_sound _ _ _ hs hw
  next => cases h; exact ⟨hs, hresult, hw⟩
  next => cases h; exact resume_ok_sound hwork hs hw _ s
  next => cases h; exact resume_error_sound hwork hs hw hresult s
  next => cases h; exact runClosure_sound hordinary hv hwork hs hw
  next => cases h; exact ⟨hs, hresult, hw⟩
  next =>
    cases h
    exact proceed_sound hordinary hwork.1 hwork.2 hw (finishCall_intact hv hwork.2 hs _)
  next => cases h

end Runs

variable {host : Host} {start : Config}

theorem decodeAt_end {q : Program} {pos : Nat} (h : q.size = pos) :
    q.decodeAt pos = .error (.outOfBounds pos pos) := by
  subst h
  have hnone : q.bytes[q.size]? = none := Array.getElem?_eq_none (Nat.le_refl q.bytes.size)
  unfold Program.decodeAt Instr.decode
  rw [hnone]
  rfl

theorem fetch_sound (hv : Verified p l) {base : Base} {ip : Nat}
    (hc : start.Reaches host ⟨.run base ip, pending, s⟩)
    (h : Sound p l (Fault.Excused p host start) ⟨.run base ip, pending, s⟩) :
    Sound p l (Fault.Excused p host start) (fetch base ip pending s) := by
  obtain ⟨hs, hip, hw⟩ := h
  unfold fetch
  rcases hip with hip | rfl
  · obtain ⟨i, hdecode, hi, hnext⟩ := hv.decodeAt_relinked hs.code hip
    change s.machine.program.decodeAt ip = _ at hdecode
    rw [hdecode]
    rcases instr_intact hv hi hs with hkept | ⟨f, herror, hmisfit⟩
    · exact proceed_sound (fun _ => Fault.excused_of_ordinary) hip hnext hw hkept
    · dsimp only
      rw [herror]
      exact ⟨hs, Fault.excused_of_misfit hc rfl hdecode hmisfit, hw⟩
  · have hsize : s.machine.program.size = p.size := hs.code.size_eq
    rw [decodeAt_end hsize]
    exact ⟨hs, rfl, hw⟩

/-- One step of a run keeps the invariant. -/
theorem step_sound (hv : Verified p l) (hhost : host.RelaysFaults) {c d : Config}
    (hc : start.Reaches host c) (h : Sound p l (Fault.Excused p host start) c)
    (hstep : step host c = some d) : Sound p l (Fault.Excused p host start) d := by
  obtain ⟨control, pending, s⟩ := c
  have hs := h.state
  have hw := h.pending
  unfold step at hstep
  split at hstep
  next base ip pending' hcontrol =>
    cases hcontrol
    cases hstep
    exact fetch_sound hv hc h
  next pending' callee args hcontrol =>
    cases hstep
    exact dispatch_sound hhost callee args hs hw
  next result work rest hcontrol hpending =>
    cases hcontrol
    cases hpending
    obtain ⟨hwork, hrest⟩ := List.forall_mem_cons.mp hw
    exact deliver_sound (fun _ => Fault.excused_of_ordinary) hv h.control hwork hs hrest hstep
  next result base savedSp entry resume rest hcontrol hpending =>
    cases hcontrol
    cases hpending
    cases hstep
    obtain ⟨hwork, hrest⟩ := List.forall_mem_cons.mp hw
    exact finishRun_sound (fun _ => Fault.excused_of_ordinary) h.control hwork hs hrest
  next => cases hstep
  next => cases hstep

end Config

end StackVM
