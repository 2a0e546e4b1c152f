import StackVM.Proofs.Machine.Calling.Endings
import StackVM.Proofs.Machine.Loading

/-! # Faults of instructions

A fault of an instruction names its offset. `Tracks` says of a point of a run which instruction was
fetched last and which fault is on its way, if there is one.
-/
namespace StackVM

namespace Exec
variable {α β : Type} {pos next count : Nat} {base : Base} {x : Exec α}

/-- The faults of the computation name this offset. -/
def Names (pos : Nat) (x : Exec α) : Prop := ∀ s f s', x s = .error f s' → f.pos = pos

theorem Safe.names {post : α → Prop} (h : Safe (fun _ => True) pos post x) : Names pos x :=
  fun _ _ _ hx => (h.error trivial hx).2.1

theorem Quiet.names (h : Quiet x) : Names pos x := by
  intro s f s' hx
  obtain ⟨a, t, ha, -⟩ := h s
  cases ha.symm.trans hx

theorem Names.fault (cause : Cause) : Names pos (Exec.fault pos cause : Exec α) := by
  intro s f s' hx
  cases hx
  rfl

theorem Names.pure (a : α) : Names pos (Pure.pure a) := by
  intro s f s' hx
  cases hx

theorem Names.bind {f : α → Exec β} (hx : Names pos x) (hf : ∀ a, Names pos (f a)) :
    Names pos (x >>= f) := by
  intro s e s' h
  rw [bind_apply] at h
  cases hres : x s with
  | ok a t =>
    rw [hres] at h
    exact hf a t e s' h
  | error g t =>
    rw [hres] at h
    cases h
    exact hx s e s' hres

theorem Names.ite {c : Prop} [Decidable c] {y : Exec α} (hx : Names pos x) (hy : Names pos y) :
    Names pos (if c then x else y) := by
  split
  · exact hx
  · exact hy

theorem jumpTarget_names (offset : Int16) : Names pos (jumpTarget pos next offset) := by
  apply machine_safe.names.bind
  intro m
  dsimp only
  split
  · exact .pure _
  · exact .fault _

theorem pushHandler_names (h : Handler) : Names pos (pushHandler pos h) := by
  intro s f s' hx
  unfold pushHandler at hx
  split at hx <;> cases hx
  rfl

theorem tryStart_names (offset : Int16) : Names pos (tryStart pos next offset) := by
  apply (jumpTarget_names offset).bind
  intro catchIp
  exact context_safe.names.bind fun c => (pushHandler_names _).bind fun _ => .pure _

theorem branch_names (offset : Int16) (wanted : Bool) :
    Names pos (branch pos next offset wanted) := by
  apply (jumpTarget_names offset).bind
  intro target
  exact pop_safe.names.bind fun v => store_safe.names.bind fun st => .ite (.pure _) (.pure _)

theorem makeClosure_names (e : EntryPoint) : Names pos (makeClosure pos next e) := by
  apply Names.ite (.fault _)
  apply (jumpTarget_names e.offset).bind
  intro entry
  apply (top_safe e.params.toNat).names.bind
  intro declared
  apply (mapM_safe paramType_safe declared).names.bind
  intro paramTypes
  apply (discard_safe e.params.toNat).names.bind
  intro _
  apply context_safe.names.bind
  intro c
  exact (pushNew_safe_of fun _ _ _ h => h).names.bind fun _ => .pure _

theorem patch_names (target : UInt16) : Names pos (patch pos target) := by
  apply machine_safe.names.bind
  intro m
  refine .ite (peek_safe.names.bind fun v => ?_) (.fault _)
  split
  next n =>
    split
    next index _ =>
      apply machine_safe.names.bind
      intro m
      refine .ite ((discard_safe 1).names.bind fun _ => ?_) (.fault _)
      split
      · exact (quiet_modifyMachine _).names.bind fun _ => .pure _
      · exact .fault _
    next => exact .fault _
  next => exact .fault _

theorem instr_names (i : Instr) : Names pos (instr base pos next i) := by
  by_cases hsteers : steers i.opcode = false
  · exact (instr_safe (T := fun _ => True) hsteers).names
  · obtain ⟨op, x⟩ := i
    cases op with
    | jump => exact (jumpTarget_names x).bind fun _ => .pure _
    | jumpTrue | jumpFalse => exact branch_names x _
    | makeClosure => exact makeClosure_names x
    | tryStart => exact tryStart_names x
    | tryEnd => exact (tryEnd_safe (T := fun _ => True) fun _ h _ => h).names
    | ret => exact (ret_safe (T := fun _ => True) fun _ _ _ h _ _ => ⟨h, trivial⟩).names
    | patch => exact patch_names x
    | _ => exact absurd rfl hsteers

theorem unwind_names (exception : Value) : Names pos (unwind base pos exception) :=
  (unwind_safe (T := fun _ => True) (fun _ _ _ h _ _ => ⟨h, trivial⟩) fun _ h => h).names

end Exec

theorem Fault.pos_ofDecode {code : Array UInt8} {ip : Nat} {e : CodeError}
    (h : Instr.decode code ip = .error e) : (ofDecode ip e).pos = ip := by
  unfold Instr.decode at h
  split at h
  next =>
    cases h
    rfl
  next byte _ =>
    unfold Instr.opcodeAt at h
    cases hop : Opcode.ofByte? byte with
    | none =>
      rw [hop] at h
      cases h
      rfl
    | some op =>
      rw [hop] at h
      dsimp only at h
      split at h <;> cases h <;> rfl

/-- A native that waits for the answer to a call is the one that calls values. -/
def Pending.AwaitsCall : Pending → Prop
  | .native _ resume | .nested _ _ _ resume => ∃ f, resume = Builtin.afterCall (.func f)
  | .call _ _ _ _ _ | .overloads _ _ _ => True

/-- An implementation is still to be chosen, or has been chosen. -/
def Control.IsOpen : Control → Prop
  | .dispatch _ _ | .dispatched (.ok _) => True
  | _ => False

namespace Config
variable {c d : Config} {cs since : List Config} {ip pos next count : Nat} {base : Base}
  {p : List Pending} {s : State} {f : Fault}

def AwaitsCalls (c : Config) : Prop := ∀ w ∈ c.pending, w.AwaitsCall

/-- A native calls this closure, and there is no frame left for it. -/
def Crowded (c : Config) (r : ClosureRef) : Prop :=
  c.control = .dispatched (.ok (.enter r)) ∧
    (∃ args resume rest, c.pending = .native args resume :: rest) ∧
    Capacity.frames ≤ c.state.context.depth

def Roomy (cs : List Config) : Prop := ∀ y ∈ cs, ∀ r, ¬ y.Crowded r

/-- Where an instruction is fetched with the next step. -/
def fetching? (c : Config) : Option Nat :=
  match c.control with
  | .run _ ip => some ip
  | _ => none

/-- Where the last instruction of a trace was fetched. -/
def lastFetched? (cs : List Config) : Option Nat := cs.reverse.findSome? fetching?

/-- The fault names the last instruction that was fetched, unless a native found no frame. -/
structure Blames (cs : List Config) (ip : Nat) (f : Fault) : Prop where
  fetched : lastFetched? cs = some ip
  names : Roomy cs → f.pos = ip
  crowded : ∀ y ∈ cs, ∀ r, y.Crowded r →
    f = ⟨(y.state.machine.store.closure r).entry, .frameOverflow⟩

/-- What is known at a point of a run about the instruction that was fetched last. -/
inductive Tracks (cs : List Config) : Config → Prop
  | running {base : Base} {ip : Nat} {p : List Pending} {s : State} :
      Roomy cs → Tracks cs ⟨.run base ip, p, s⟩
  | choosing {control : Control} (works : List Pending) {base : Base} {pos next count : Nat}
      {callee : Function} {rest : List Pending} {s : State} :
      Roomy cs → control.IsOpen → (∀ w ∈ works, w.IsPassive) → lastFetched? cs = some pos →
      Tracks cs ⟨control, works ++ .call base pos next count callee :: rest, s⟩
  | answered {result : MethodResult} {p : List Pending} {s : State} :
      Roomy cs → (∀ why, result ≠ .failed why) →
      Tracks cs ⟨.dispatched (.ok (.settled result)), p, s⟩
  | ended {e : Exit} {p : List Pending} {s : State} :
      Roomy cs → Tracks cs ⟨.exited (.ok e), p, s⟩
  | doomed {c : Config} {ip : Nat} {f : Fault} :
      c.control = .exited (.error f) ∨ c.control = .dispatched (.error f) → Blames cs ip f →
      Tracks cs c

theorem lastFetched?_concat (cs : List Config) (c : Config) :
    lastFetched? (cs ++ [c]) = c.fetching?.or (lastFetched? cs) := by
  rw [lastFetched?, List.reverse_concat, List.findSome?_cons, lastFetched?]
  cases c.fetching? <;> rfl

theorem Roomy.concat (h : Roomy cs) (hc : ∀ r, ¬ c.Crowded r) : Roomy (cs ++ [c]) := by
  intro y hy
  rcases List.mem_append.mp hy with hy | hy
  · exact h y hy
  · rw [List.mem_singleton.mp hy]
    exact hc

theorem Blames.of_pos (hroomy : Roomy cs) (hlast : lastFetched? cs = some ip) (hf : f.pos = ip) :
    Blames cs ip f :=
  ⟨hlast, fun _ => hf, fun y hy r hr => absurd hr (hroomy y hy r)⟩

theorem Blames.concat (h : Blames cs ip f) (hc : c.fetching? = none)
    (hroom : ∀ r, ¬ c.Crowded r) : Blames (cs ++ [c]) ip f := by
  constructor
  · rw [lastFetched?_concat, hc, Option.none_or]
    exact h.fetched
  · intro hall
    exact h.names fun y hy => hall y (List.mem_append_left _ hy)
  · intro y hy
    rcases List.mem_append.mp hy with hy | hy
    · exact h.crowded y hy
    · rw [List.mem_singleton.mp hy]
      exact fun r hr => absurd hr (hroom r)

theorem Crowded.blames {r : ClosureRef} (h : c.Crowded r) (hroomy : Roomy cs)
    (hlast : lastFetched? (cs ++ [c]) = some ip) :
    Blames (cs ++ [c]) ip ⟨(c.state.machine.store.closure r).entry, .frameOverflow⟩ := by
  refine ⟨hlast, ?_, ?_⟩
  · intro hall
    exact absurd h (hall c (by simp) r)
  · intro y hy r' hr'
    rcases List.mem_append.mp hy with hy | hy
    · exact absurd hr' (hroomy y hy r')
    · rw [List.mem_singleton.mp hy] at hr' ⊢
      cases h.1.symm.trans hr'.1
      rfl

theorem proceed_tracks {x : Exec Step} (hx : Exec.Names pos x) (hroomy : Roomy cs)
    (hlast : lastFetched? cs = some pos) : Tracks cs (proceed base pos next p (x s)) := by
  cases hres : x s with
  | error f t => exact .doomed (.inl rfl) (.of_pos hroomy hlast (hx s f t hres))
  | ok step t =>
    cases step with
    | next | jump => exact .running hroomy
    | exit e => exact .ended hroomy
    | invoke callee args => exact .choosing [] hroomy trivial (by simp) hlast
    | raise v =>
      unfold proceed
      dsimp only
      split
      next => exact .running hroomy
      next => exact .ended hroomy
      next f u hunwind =>
        exact .doomed (.inl rfl) (.of_pos hroomy hlast (Exec.unwind_names v t f u hunwind))

theorem fetch_tracks (hroomy : Roomy cs) (base : Base) (ip : Nat) (p : List Pending) (s : State) :
    Tracks (cs ++ [⟨.run base ip, p, s⟩]) (fetch base ip p s) := by
  have hlast : lastFetched? (cs ++ [⟨.run base ip, p, s⟩]) = some ip := lastFetched?_concat cs _
  have hroomy' : Roomy (cs ++ [⟨.run base ip, p, s⟩]) :=
    hroomy.concat fun r hr => by simpa using hr.1
  unfold fetch
  split
  next e hdecode =>
    exact .doomed (.inl rfl) (.of_pos hroomy' hlast (Fault.pos_ofDecode hdecode))
  next i next hdecode => exact proceed_tracks (Exec.instr_names i) hroomy' hlast

end Config
end StackVM
