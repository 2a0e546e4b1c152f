import StackVM.Proofs.Machine.Honesty.Natives

/-! # Steps with honest natives

With honest natives every configuration of a run stays coherent, down to the work that waits.
-/
namespace StackVM

def Dispatch.Live (st : Store) : Dispatch → Prop
  | .settled result => result.Live st
  | .enter r => (Function.closure r).Live st

def Control.Live (st : Store) : Control → Prop
  | .run _ _ => True
  | .dispatch callee args => callee.Live st ∧ ∀ v ∈ args, v.Live st
  | .dispatched result => ∀ d, result = .ok d → d.Live st
  | .exited result => ∀ e, result = .ok e → e.Live st

/-- What the work refers to exists. The overloads that are left of a chain are no chains. -/
def Pending.Live (st : Store) : Pending → Prop
  | .call _ _ _ _ _ => True
  | .overloads rest _ args =>
    (∀ f ∈ rest, f.Live st ∧ ∀ r, f ≠ .chain r) ∧ ∀ v ∈ args, v.Live st
  | .native args resume => (∀ v ∈ args, v.Live st) ∧ Resume.Honest resume st
  | .nested _ _ _ resume => Resume.Honest resume st

namespace Config

structure Coherent (c : Config) : Prop where
  state : c.state.Coherent
  control : c.control.Live c.state.machine.store
  pending : ∀ w ∈ c.pending, w.Live c.state.machine.store

/-- A configuration that is coherent and has everything that the state had. -/
structure Inherits (s : State) (c : Config) : Prop where
  grows : s.machine.store.Grows c.state.machine.store
  coherent : c.Coherent

end Config

theorem Resume.Honest.mono {resume : Resume} {st st' : Store} (h : Resume.Honest resume st)
    (hst : st.Grows st') : Resume.Honest resume st' :=
  fun reply s hs hgrows hreply => h reply s hs (hst.trans hgrows) hreply

theorem Pending.Live.mono {w : Pending} {st st' : Store} (h : w.Live st) (hst : st.Grows st') :
    w.Live st' := by
  cases w with
  | call => trivial
  | overloads rest missing args =>
    exact ⟨fun f hf => ⟨(h.1 f hf).1.mono hst, (h.1 f hf).2⟩, fun v hv => (h.2 v hv).mono hst⟩
  | native args resume => exact ⟨fun v hv => (h.1 v hv).mono hst, h.2.mono hst⟩
  | nested base savedSp entry resume => exact Resume.Honest.mono h hst

namespace Config
variable {host : Host} {c d : Config} {s t : State} {p : List Pending} {args : List Value}
  {base : Base} {pos next : Nat} {resume : Resume}

theorem Inherits.of_develops {control : Control} (hs : s.Develops t)
    (hcontrol : control.Live t.machine.store) (hp : ∀ w ∈ p, w.Live s.machine.store) :
    Inherits s ⟨control, p, t⟩ :=
  ⟨hs.grows, hs.coherent, hcontrol, fun w hw => (hp w hw).mono hs.grows⟩

theorem Inherits.after (h : Inherits t c) (hs : s.Develops t) : Inherits s c :=
  ⟨hs.grows.trans h.grows, h.coherent⟩

theorem mono_pending (hs : s.Develops t) (hp : ∀ w ∈ p, w.Live s.machine.store) :
    ∀ w ∈ p, w.Live t.machine.store := fun w hw => (hp w hw).mono hs.grows

theorem act_inherits {a : Action} (hs : s.Coherent) (ha : a.Honest s)
    (hp : ∀ w ∈ p, w.Live s.machine.store) : Inherits s (act p a s) := by
  induction a generalizing s with
  | done result =>
    refine .of_develops hs.refl ?_ hp
    rintro _ ⟨⟩
    exact ha
  | fault f => exact .of_develops hs.refl nofun hp
  | edit e resume ih =>
    have hedit := hs.put (ha.1.apply hs.machine.store).toDevelops
    exact .after (ih _ hedit.coherent ha.2 (mono_pending hedit hp)) hedit
  | call callee args resume ih =>
    obtain ⟨hcallee, hargs, hresume⟩ := ha
    have hother : ∀ found : Value, Inherits s
        (act p (resume (.ok (.exception (s.withStore (·.notCallable found)).1))
          (s.withStore (·.notCallable found)).2) (s.withStore (·.notCallable found)).2) := by
      intro found
      have herror := hs.machine.store.newError "NotCallable" "found" found.typeName
      have hput := hs.put herror.toDevelops
      refine .after (ih _ _ hput.coherent (hresume _ _ hput ?_) (mono_pending hput hp)) hput
      rintro _ ⟨⟩
      exact herror.live
    cases callee with
    | func f =>
      refine .of_develops hs.refl ⟨hcallee, hargs⟩ (List.forall_mem_cons.mpr ⟨⟨hargs, ?_⟩, hp⟩)
      exact fun reply t ht hgrows hreply => hresume reply t ⟨hgrows, ht⟩ hreply
    | _ => exact hother _
  | define native resume ih =>
    obtain ⟨hgrows, hm⟩ := hs.machine.defineNative native
    have hdefined := hs.withMachine hgrows hm
    exact .after (ih _ hdefined.coherent ha (mono_pending hdefined hp)) hdefined
  | reset resume ih =>
    have hreset : s.Develops { s with context := .new } :=
      hs.withContext fun v hv => nomatch (show v ∈ [] from hv)
    exact .after (ih hreset.coherent ha (mono_pending hreset hp)) hreset

theorem tryNext_inherits {fs : List Function} (hs : s.Coherent)
    (hfs : ∀ f ∈ fs, f.Live s.machine.store ∧ ∀ r, f ≠ .chain r)
    (hargs : ∀ v ∈ args, v.Live s.machine.store) (hp : ∀ w ∈ p, w.Live s.machine.store)
    (missing : Bool) : Inherits s (tryNext missing args p s fs) := by
  cases fs with
  | nil =>
    refine .of_develops hs.refl ?_ hp
    rintro _ ⟨⟩
    trivial
  | cons f fs =>
    obtain ⟨hf, hfs⟩ := List.forall_mem_cons.mp hfs
    exact .of_develops hs.refl ⟨hf.1, hargs⟩ (List.forall_mem_cons.mpr ⟨⟨hfs, hargs⟩, hp⟩)

theorem dispatch_inherits (hhost : host.Honest) (hs : s.Coherent) {callee : Function}
    (hcallee : callee.Live s.machine.store) (hargs : ∀ v ∈ args, v.Live s.machine.store)
    (hp : ∀ w ∈ p, w.Live s.machine.store) : Inherits s (dispatch host callee args p s) := by
  cases callee with
  | closure r =>
    simp only [dispatch]
    split
    · refine .of_develops hs.refl ?_ hp
      rintro _ ⟨⟩
      exact hcallee
    · refine .of_develops hs.refl ?_ hp
      rintro _ ⟨⟩
      trivial
  | chain r =>
    refine tryNext_inherits hs (fun f hf => ?_) hargs hp false
    exact hs.machine.store.overloads_live r f (List.mem_reverse.mp hf)
  | native r =>
    have hhonest := NativeCode.body_honest hhost (s.machine.store.native r).code
    simp only [dispatch]
    split
    next run hbody =>
      rw [hbody] at hhonest
      obtain ⟨hdevelops, hlive⟩ :=
        (hhonest _ _ args hs.machine.store hargs).perform hs.machine.store
      refine .of_develops (hs.put hdevelops) ?_ hp
      rintro _ ⟨⟩
      exact hlive
    next run hbody =>
      rw [hbody] at hhonest
      exact act_inherits hs (hhonest s args hs hargs) hp

theorem proceed_inherits {x : Exec Step} (hx : Exec.Upholds s Step.Live x)
    (hp : ∀ w ∈ p, w.Live s.machine.store) : Inherits s (proceed base pos next p (x s)) := by
  cases hres : x s with
  | error f t => exact .of_develops (hx.error hres) nofun hp
  | ok step t =>
    obtain ⟨ht, hlive⟩ := hx.ok hres
    cases step with
    | next | jump => exact .of_develops ht trivial hp
    | exit e =>
      refine .of_develops ht ?_ hp
      rintro _ ⟨⟩
      exact hlive
    | invoke callee args =>
      exact .of_develops ht hlive (List.forall_mem_cons.mpr ⟨trivial, hp⟩)
    | raise v =>
      have hunwind : Exec.Upholds t (fun u t' => ∀ w, u = .uncaught w → w.Live t'.machine.store)
          (Exec.unwind base pos v) := Exec.unwind_upholds ht.coherent hlive
      have hp' := mono_pending ht hp
      simp only [proceed]
      cases hout : Exec.unwind base pos v t with
      | error f u => exact .after (.of_develops (hunwind.error hout) nofun hp') ht
      | ok unwound u =>
        obtain ⟨hu, hlive⟩ := hunwind.ok hout
        cases unwound with
        | caught ip => exact .after (.of_develops hu trivial hp') ht
        | uncaught w =>
          refine .after (.of_develops hu ?_ hp') ht
          rintro _ ⟨⟩
          exact hlive w rfl

theorem finishCall_upholds (hs : s.Coherent) {d : Dispatch} (hd : d.Live s.machine.store)
    (count : Nat) (callee : Function) :
    Exec.Upholds s Step.Live (finishCall pos next count callee d) := by
  cases d with
  | enter r =>
    refine .read hs Exec.reads_store fun st _ => .read hs Exec.reads_requireFrame fun _ _ => ?_
    refine (Exec.popN_upholds hs).bind fun values t ht hvalues => ?_
    refine .read ht.coherent Exec.reads_context fun c _ => ?_
    have hargs : ∀ v ∈ values.take count, v.Live t.machine.store :=
      fun v hv => hvalues v (List.mem_of_mem_take hv)
    exact (Exec.pushFrame_upholds ht.coherent _ hargs _ _).bind
      fun _ u hu _ => .pure hu.coherent trivial
  | settled result =>
    have hdiscard := Exec.discard_upholds hs (count + 1)
    cases result with
    | ok v =>
      refine hdiscard.bind fun _ t ht _ => ?_
      refine (Exec.push_upholds ht.coherent (Value.Live.mono hd ht.grows)).bind fun _ u hu _ => ?_
      exact .pure hu.coherent trivial
    | exception v =>
      exact hdiscard.bind fun _ t ht _ => .pure ht.coherent (Value.Live.mono hd ht.grows)
    | failed why =>
      refine hdiscard.bind fun _ t ht _ => ?_
      have herror := ht.coherent.machine.store.newError why.kind "callee"
        (t.machine.store.functionName callee)
      exact (Exec.create_upholds ht.coherent herror).bind fun _ u hu hv => .pure hu.coherent hv

theorem runClosure_inherits (hs : s.Coherent) (hargs : ∀ v ∈ args, v.Live s.machine.store)
    (hresume : Resume.Honest resume s.machine.store) (hp : ∀ w ∈ p, w.Live s.machine.store)
    (r : ClosureRef) : Inherits s (runClosure r args resume p s) := by
  simp only [runClosure]
  split
  next t hok =>
    obtain ⟨ht, -⟩ := (Exec.pushFrame_upholds hs _ hargs _ _).ok hok
    exact .of_develops ht trivial (List.forall_mem_cons.mpr ⟨hresume, hp⟩)
  next f t herror =>
    have ht := (Exec.pushFrame_upholds hs _ hargs _ _).error herror
    exact .after (act_inherits ht.coherent (hresume _ _ ht.coherent ht.grows nofun)
      (mono_pending ht hp)) ht

theorem finishRun_develops (hs : s.Coherent) {result : Except Fault Exit}
    (hresult : ∀ e, result = .ok e → e.Live s.machine.store) (base : Base) (savedSp entry : Nat) :
    s.Develops (finishRun base savedSp entry s result).2 ∧
      ∀ reply, (finishRun base savedSp entry s result).1 = .ok reply →
        reply.Live (finishRun base savedSp entry s result).2.machine.store := by
  have hrestore : s.Develops (restore base savedSp s) :=
    hs.withContext fun v hv => hs.stack v (Exec.mem_of_mem_keepOldest hv)
  cases result with
  | error f => exact ⟨hrestore, nofun⟩
  | ok e =>
    have he := hresult e rfl
    cases e with
    | halted v => exact ⟨hrestore, nofun⟩
    | returned v | raised v =>
      refine ⟨hs.refl, ?_⟩
      rintro _ ⟨⟩
      exact he

theorem deliver_inherits (hs : s.Coherent) {result : Except Fault Dispatch} {work : Pending}
    (hresult : ∀ d, result = .ok d → d.Live s.machine.store) (hwork : work.Live s.machine.store)
    (hp : ∀ w ∈ p, w.Live s.machine.store) (h : deliver result work p s = some d) :
    Inherits s d := by
  unfold deliver at h
  split at h <;> cases h
  case h_1 => exact tryNext_inherits hs hwork.1 hwork.2 hp true
  case h_2 missing args => exact tryNext_inherits hs hwork.1 hwork.2 hp missing
  case h_3 => exact .of_develops hs.refl hresult hp
  case h_4 args resume reply =>
    refine act_inherits hs (hwork.2 _ _ hs (.refl _) ?_) hp
    rintro _ ⟨⟩
    exact hresult _ rfl
  case h_5 => exact act_inherits hs (hwork.2 _ _ hs (.refl _) nofun) hp
  case h_6 r => exact runClosure_inherits hs hwork.1 hwork.2 hp r
  case h_7 => exact .of_develops hs.refl nofun hp
  case h_8 callee chosen => exact proceed_inherits (finishCall_upholds hs (hresult _ rfl) _ _) hp

/-- One step: what waits is taken up with what it knows. -/
theorem step_inherits (hhost : host.Honest) (hc : c.Coherent) (h : step host c = some d) :
    Inherits c.state d := by
  obtain ⟨control, p, s⟩ := c
  obtain ⟨hs, hcontrol, hp⟩ := hc
  cases control with
  | run base ip =>
    cases h
    simp only [fetch]
    split
    · refine .of_develops hs.refl ?_ hp
      rintro _ ⟨⟩
    · exact proceed_inherits (Exec.instr_upholds hs base ip _ _) hp
  | dispatch callee args =>
    cases h
    exact dispatch_inherits hhost hs hcontrol.1 hcontrol.2 hp
  | dispatched result =>
    cases p with
    | nil => cases h
    | cons work rest =>
      obtain ⟨hwork, hrest⟩ := List.forall_mem_cons.mp hp
      exact deliver_inherits hs hcontrol hwork hrest h
  | exited result =>
    cases p with
    | nil => cases h
    | cons work rest =>
      obtain ⟨hwork, hrest⟩ := List.forall_mem_cons.mp hp
      cases work with
      | call | overloads | native => cases h
      | nested base savedSp entry resume =>
        cases h
        obtain ⟨hend, hreply⟩ := finishRun_develops hs hcontrol base savedSp entry
        refine .after (act_inherits hend.coherent ?_ (mono_pending hend hrest)) hend
        exact hwork _ _ hend.coherent hend.grows hreply

end Config

end StackVM
