import StackVM.Proofs.Machine.Calling.Endings

/-! # Calls by way of a native

The native `call` calls its first argument with the others. A call instruction for the same value
and arguments enters a closure in the run itself, where the native starts another run for it: with
another base, over a stack that still has the native, the callee and the arguments on it. The two
ways are followed side by side. While an implementation is chosen, they take the same steps.
-/
namespace StackVM

theorem Context.eq_new_of_on {r floor : Context} (hframes : (r.on floor).frames = floor.frames)
    (hhandlers : (r.on floor).handlers = floor.handlers) (hsp : (r.on floor).sp ≤ floor.sp) :
    r = .new := by
  have hdepth : (r.on floor).depth = floor.depth := congrArg List.length hframes
  have hcount : (r.on floor).handlerCount = floor.handlerCount := congrArg List.length hhandlers
  rw [sp_on] at hsp
  rw [depth_on] at hdepth
  rw [handlerCount_on] at hcount
  obtain ⟨stack, frames, handlers⟩ := r
  have hstack : stack.length + floor.sp ≤ floor.sp := hsp
  obtain rfl : stack = [] := List.length_eq_zero_iff.mp (by omega)
  obtain rfl : frames = [] := List.length_eq_zero_iff.mp (Nat.add_eq_right.mp hdepth)
  obtain rfl : handlers = [] := List.length_eq_zero_iff.mp (Nat.add_eq_right.mp hcount)
  rfl

theorem dropHandlers_zero (hs : List Handler) : Exec.dropHandlers 0 0 hs = [] := by
  induction hs with
  | nil => rfl
  | cons h hs ih =>
    rw [Exec.dropHandlers, if_pos ⟨Nat.succ_pos _, Nat.zero_le _⟩]
    exact ih

theorem Exec.ret_floor {base : Base} {pos : Nat} {m : Machine} {r floor : Context} {g : Frame}
    {fs : List Frame} {v : Value} {above : List Value} (hfloor : floor.frames = g :: fs)
    (hsaved : g.savedSp = floor.sp) (hframes : r.frames = []) (hstack : r.stack = v :: above)
    (hbelow : base.Below floor) :
    ret base pos ⟨m, r.on floor⟩ =
      (if base.nested ∧ fs.length = base.frames then return .exit (.returned v)
        else push pos v >>= fun _ => return .jump g.returnIp)
        ⟨m, ⟨floor.stack, fs, floor.handlers⟩⟩ := by
  have hstack' : (r.on floor).stack = v :: (above ++ floor.stack) := by simp [Context.on, hstack]
  have hframes' : (r.on floor).frames = g :: fs := by simp [Context.on, hframes, hfloor]
  have hdepth : floor.depth = fs.length + 1 := by simp [Context.depth, hfloor]
  have hkeep : keepOldest g.savedSp (above ++ floor.stack) = floor.stack :=
    keepOldest_eq_of_suffix (List.suffix_append _ _) hsaved.symm
  have hhandlers : dropHandlers base.handlers (r.on floor).depth (r.on floor).handlers =
      floor.handlers := by
    have hkept : dropHandlers base.handlers (0 + floor.depth) floor.handlers = floor.handlers :=
      dropHandlers_eq_self fun e rest heq hle => by
        have := hbelow.outside e rest heq hle
        omega
    have hdrop := dropHandlers_on r.handlers hkept
    rw [Nat.sub_eq_zero_of_le hbelow.handlers, dropHandlers_zero] at hdrop
    rw [Context.depth_on, Context.depth, hframes]
    exact hdrop
  have hown := hbelow.frames
  rw [hdepth] at hown
  rw [ret_apply hstack' hframes' (by simp [hsaved, Context.sp]) (Nat.le_of_lt_succ hown), hkeep,
    hhandlers]

section Return
variable {base : Base} {pos : Nat} {m : Machine} {r floor : Context} {g : Frame} {fs : List Frame}
  {v : Value} {above : List Value}

theorem Exec.ret_floor_goes (hfloor : floor.frames = g :: fs) (hsaved : g.savedSp = floor.sp)
    (hframes : r.frames = []) (hstack : r.stack = v :: above) (hbelow : base.Below floor)
    (hinner : ¬ (base.nested = true ∧ fs.length = base.frames))
    (hroom : floor.sp < Capacity.stack) :
    ret base pos ⟨m, r.on floor⟩ =
      .ok (.jump g.returnIp) ⟨m, ⟨v :: floor.stack, fs, floor.handlers⟩⟩ := by
  have hpush : push pos v ⟨m, ⟨floor.stack, fs, floor.handlers⟩⟩ =
      .ok () ⟨m, ⟨v :: floor.stack, fs, floor.handlers⟩⟩ := if_pos hroom
  rw [ret_floor hfloor hsaved hframes hstack hbelow, if_neg hinner, bind_apply, hpush]
  rfl

theorem Exec.ret_floor_leaves (hfloor : floor.frames = g :: fs) (hsaved : g.savedSp = floor.sp)
    (hframes : r.frames = []) (hstack : r.stack = v :: above) (hbelow : base.Below floor)
    (hinner : base.nested = true ∧ fs.length = base.frames) :
    ret base pos ⟨m, r.on floor⟩ =
      .ok (.exit (.returned v)) ⟨m, ⟨floor.stack, fs, floor.handlers⟩⟩ := by
  rw [ret_floor hfloor hsaved hframes hstack hbelow, if_pos hinner]
  rfl

theorem Exec.of_ret_floor {step : Step} {t : State} (hfloor : floor.frames = g :: fs)
    (hsaved : g.savedSp = floor.sp) (hres : ret base pos ⟨m, r.on floor⟩ = .ok step t)
    (hleft : t.context.depth ≤ fs.length) : r.frames = [] ∧ ∃ v above, r.stack = v :: above := by
  obtain ⟨v, under, g', frames, hstack, hframes, hle, -, hcase⟩ := ret_eq_ok hres
  have hdepth : t.context.depth = frames.length := by
    rcases hcase with ⟨-, -, -, heq⟩ | ⟨-, -, heq⟩ <;> rw [heq] <;> rfl
  have hr : r.frames = [] := by
    have hlength := congrArg List.length hframes
    simp only [Context.on, hfloor, List.length_append, List.length_map, List.length_cons] at hlength
    exact List.length_eq_zero_iff.mp (by omega)
  refine ⟨hr, ?_⟩
  cases hstack' : r.stack with
  | cons w above => exact ⟨w, above, rfl⟩
  | nil =>
    simp only [Context.on, hr, hfloor, List.map_nil, List.nil_append, List.cons.injEq] at hframes
    simp only [Context.on, hstack', List.nil_append] at hstack
    rw [← hframes.1, hsaved, Context.sp, hstack, List.length_cons] at hle
    omega

end Return

namespace Shift.Twins
variable {σ : Shift} {host : Host} {rest rest' : List Pending} {x y : Config}

theorem reach_eq (h : σ.Twins rest rest' x y) (hadded : σ.added = #[]) (hclear : x.Clear rest) :
    y.reach = x.reach := by
  obtain @⟨control, control', p, p', m, r, hcontrol, hp⟩ := h
  cases hcontrol with
  | run ip hbase => simp only [Config.reach, here, there, hadded, Machine.extend_empty]
  | dispatch | exited => rfl
  | dispatched result =>
    cases hp with
    | nil => exact absurd hclear (Nat.lt_irrefl _)
    | cons hwork hp => cases hwork <;> rfl

/-- If the second run uses no value below its first frame above the floor, the first one uses none
of the floor. -/
theorem within {depth : Nat} (h : σ.Twins rest rest' x y) (hadded : σ.added = #[])
    (hclear : x.Clear rest) (hpos : 0 < σ.high.sp) (htame : y.Tame host Config.Touches depth)
    (hframe : x.base? ≠ none →
      ∃ f, oldest? depth y.state.context.frames = some f ∧ σ.high.sp ≤ f.savedSp) :
    σ.low.sp + x.reach ≤ x.state.context.sp := by
  have hreach := h.reach_eq hadded hclear
  obtain @⟨control, control', p, p', m, r, hcontrol, hp⟩ := h
  rw [σ.context_here, Context.sp_on]
  by_cases hbase : Config.base? ⟨control, p ++ rest, σ.here m r⟩ = none
  · rw [Config.reach_eq_zero hbase]
    omega
  · obtain ⟨f, hf, hle⟩ := hframe hbase
    generalize Config.reach ⟨control, p ++ rest, σ.here m r⟩ = n at hreach ⊢
    by_contra hlt
    refine htame.above f hf (r.sp + σ.high.sp - n) (by omega) ⟨?_, ?_⟩
    · rw [σ.context_there, Context.sp_on, hreach]
    · rw [σ.context_there, Context.sp_on]
      omega

theorem run_eq {base : Base} {ip : Nat} {s : State}
    (h : σ.Twins rest rest' ⟨.run base ip, rest, s⟩ y) :
    ∃ base' m r, σ.Bases base base' ∧ s = σ.here m r ∧
      y = ⟨.run base' ip, rest', σ.there m r⟩ := by
  generalize hx : (⟨.run base ip, rest, s⟩ : Config) = x at h
  obtain @⟨control, control', p, p', m, r, hcontrol, hp⟩ := h
  obtain ⟨rfl, hrest, rfl⟩ := Config.mk.injEq .. ▸ hx
  obtain rfl : p = [] := List.self_eq_append_left.mp hrest
  cases hp
  cases hcontrol with
  | run _ hbase => exact ⟨_, m, r, hbase, rfl, rfl⟩

theorem call_eq {base : Base} {pos next count : Nat} {callee : Function}
    {result : Except Fault Dispatch} {s : State}
    (h : σ.Twins rest rest'
      ⟨.dispatched result, .call base pos next count callee :: rest, s⟩ y) :
    ∃ base' m r, σ.Bases base base' ∧ s = σ.here m r ∧
      y = ⟨.dispatched result, .call base' pos next count callee :: rest', σ.there m r⟩ := by
  generalize hx : (⟨.dispatched result, .call base pos next count callee :: rest, s⟩ : Config) = x
    at h
  obtain @⟨control, control', p, p', m, r, hcontrol, hp⟩ := h
  obtain ⟨rfl, hrest, rfl⟩ := Config.mk.injEq .. ▸ hx
  obtain rfl : p = [.call base pos next count callee] :=
    (List.append_cancel_right (List.singleton_append.trans hrest)).symm
  cases hp with
  | cons hwork hnil =>
    cases hnil
    cases hcontrol
    cases hwork with
    | call _ _ _ _ hbase => exact ⟨_, m, r, hbase, rfl, rfl⟩

end Shift.Twins

/-- A call of a function, and the call of the native that is given the function and the arguments
to call. The second one has come to the point where the native calls the function. -/
structure Detour where
  base : Base
  rest : List Pending
  below : Context
  callee : Function
  args : List Value
  via : Function
  pos : Nat
  next : Nat
  waiting : List Pending
  stands : base.Stands below
  longer : rest.length < waiting.length

namespace Detour
variable (k : Detour)

/-- What is there at the call itself. -/
def low : Context := k.below.calling (.func k.callee) k.args

/-- What is there at the call of the native. -/
def high : Context := k.below.calling (.func k.via) (.func k.callee :: k.args)

/-- The base of the run that the native starts for a closure. -/
def inner : Base := ⟨k.below.depth, k.below.handlerCount, true⟩

def resume : Resume := Builtin.afterCall (.func k.callee)

/-- The call instruction, while it waits for the choice of an implementation. -/
def call : Pending := .call k.base k.pos k.next k.args.length k.callee

/-- An implementation is chosen over all that is on the stack. -/
def choosing : Shift := ⟨k.low, k.high, #[], none, rfl, rfl, rfl⟩

/-- The body of a closure runs in its frame, which stands on what is below the callee or on
everything. -/
def body (f : Frame) (entry : Nat) : Shift where
  low := { k.below with frames := f :: k.below.frames }
  high := { k.high with
    frames := { f with returnIp := entry, savedSp := k.high.sp } :: k.below.frames }
  added := #[]
  runs := some (k.base, k.inner)
  depth := rfl
  handlerCount := rfl
  bindings := rfl

/-- Two points of the two calls that correspond to each other. -/
inductive Abreast : Config → Config → Prop
  | choosing {x y : Config} : x.Layers [] (Waiting [] k.low (.running k.base)) k.rest →
      k.choosing.Twins (k.call :: k.rest) (.native k.args k.resume :: k.waiting) x y → Abreast x y
  | running {x y : Config} {f : Frame} {entry : Nat} : f.returnIp = k.next →
      f.savedSp = k.below.sp →
      x.Layers [] (Stretch [] k.base (f :: k.below.frames) k.below.handlers) k.rest →
      (k.body f entry).Twins k.rest (.nested k.inner k.high.sp entry k.resume :: k.waiting) x y →
      Abreast x y

/-- What is known of the two call instructions, and of the points of both calls. -/
structure Compares (k : Detour) (host : Host) (c c' : Config) : Prop where
  ignores : host.IgnoresStack
  pending : c.pending = k.rest
  pending' : c'.pending = k.rest
  depth : c.state.context.depth = k.below.depth
  space : k.below.sp < Capacity.stack
  room : c.state.context.sp ≤ Capacity.stack
  tame : ∀ x, Config.During host c x → x.Tame host Config.Touches k.below.depth
  tame' : ∀ y, Config.During host c' y → y.Tame host Config.Touches k.below.depth

end Detour

namespace Detour
variable {k : Detour} {host : Host} {c x x' y : Config}

theorem Abreast.longer (h : k.Abreast x y) : k.rest.length < y.pending.length := by
  have hlonger := k.longer
  cases h with
  | choosing _ htwins =>
    cases htwins
    simp only [List.length_append, List.length_cons]
    omega
  | running _ _ _ htwins =>
    cases htwins
    simp only [List.length_append, List.length_cons]
    omega

/-- While an implementation is chosen, every run was started after the call, so it has a frame above
those of the call. -/
theorem choosing_above {b : Base}
    (hlayers : x.Layers [] (Waiting [] k.low (.running k.base)) k.rest)
    (hclear : x.Clear (k.call :: k.rest)) (hlong : k.rest.length < x.pending.length)
    (hb : x.base? = some b) : k.below.depth ≤ b.frames ∧ b.frames < x.state.context.depth := by
  have hground : ∀ mode ctx, (∀ result, mode ≠ .ended result) →
      Waiting [] k.low (.running k.base) mode ctx → k.below.frames <:+ ctx.frames := by
    intro mode ctx hmode h
    cases mode with
    | ended result => exact absurd rfl (hmode result)
    | choosing | running => exact h.2.2.frames ▸ List.suffix_rfl
  rcases hlayers.base_cases hground hb (.inr hlong) with
    (⟨-, hpending⟩ | ⟨hrun, _, _, _, _, hpending⟩) | habove
  · rw [hpending] at hlong
    exact absurd hlong (Nat.lt_irrefl _)
  · have hlt := hclear.longer hb hrun
    rw [hpending] at hlt
    exact absurd hlt (Nat.lt_irrefl _)
  · exact habove

theorem choosing_frame
    (htwins : k.choosing.Twins (k.call :: k.rest) (.native k.args k.resume :: k.waiting) x y)
    (hlt : k.below.depth < x.state.context.depth) :
    ∃ f, oldest? k.below.depth y.state.context.frames = some f ∧
      k.choosing.high.sp ≤ f.savedSp := by
  cases htwins with
  | intro m r =>
    have hdepth : k.choosing.low.depth = k.below.depth := rfl
    rw [Shift.context_here, Context.depth_on, hdepth] at hlt
    have hpos : 0 < r.frames.reverse.length := by
      rw [List.length_reverse]
      exact Nat.pos_of_lt_add_left hlt
    obtain ⟨f, hf⟩ : ∃ f, oldest? 0 r.frames = some f := ⟨_, List.getElem?_eq_getElem hpos⟩
    have hlifted := oldest?_on 0 r k.high
    rw [hf, Nat.zero_add] at hlifted
    exact ⟨f.lift k.high.sp, hlifted, Nat.le_add_left _ _⟩

theorem choosing_done
    (hlayers : x.Layers [] (Waiting [] k.low (.running k.base)) k.rest)
    (htwins : k.choosing.Twins (k.call :: k.rest) (.native k.args k.resume :: k.waiting) x y)
    (hclear : ¬ x.Clear (k.call :: k.rest)) :
    ∃ result m, x = ⟨.dispatched result, k.call :: k.rest, ⟨m, k.low⟩⟩ ∧
      y = ⟨.dispatched result, .native k.args k.resume :: k.waiting, ⟨m, k.high⟩⟩ := by
  obtain @⟨control, control', p, p', m, r, hcontrol, hp⟩ := htwins
  obtain ⟨q, hq, hlayered⟩ := hlayers
  have hnil : p = [] := by
    by_contra hne
    have hpos := List.length_pos_of_ne_nil hne
    refine hclear ?_
    unfold Config.Clear
    split
    · trivial
    · trivial
    · rw [List.length_append]
      omega
    · rw [List.length_append]
      omega
  subst hnil
  cases hp
  obtain rfl : q = [k.call] := (List.append_cancel_right hq).symm
  cases hcontrol with
  | run | dispatch => exact absurd trivial hclear
  | exited => exact hlayered.elim
  | dispatched result =>
    obtain ⟨-, -, hframes, hhandlers, -, hsp⟩ := hlayered
    obtain rfl : r = .new := Context.eq_new_of_on hframes hhandlers hsp
    exact ⟨result, m, rfl, congrArg (Config.mk _ _) (congrArg (State.mk · _) m.extend_empty)⟩

/-- While an implementation is chosen, a step is matched, or the choice has been made. -/
theorem choosing_step (hhost : host.IgnoresStack)
    (hlayers : x.Layers [] (Waiting [] k.low (.running k.base)) k.rest)
    (htwins : k.choosing.Twins (k.call :: k.rest) (.native k.args k.resume :: k.waiting) x y)
    (hstep : Config.step host x = some x') (hroom : x.state.context.sp ≤ Capacity.stack)
    (htame : x.Tame host Config.Touches k.below.depth)
    (htame' : y.Tame host Config.Touches k.below.depth) :
    (∃ y', Config.step host y = some y' ∧ k.rest.length < x'.pending.length ∧
      k.Abreast x' y') ∨
    ∃ result m, x = ⟨.dispatched result, k.call :: k.rest, ⟨m, k.low⟩⟩ ∧
      y = ⟨.dispatched result, .native k.args k.resume :: k.waiting, ⟨m, k.high⟩⟩ := by
  by_cases hclear : x.Clear (k.call :: k.rest)
  · have hlonger : ∀ {x y}, k.choosing.Twins (k.call :: k.rest)
        (.native k.args k.resume :: k.waiting) x y → k.rest.length < x.pending.length := by
      intro x y h
      cases h
      simp only [List.length_append, List.length_cons]
      omega
    have hlong := hlonger htwins
    have hallows : k.choosing.Allows host (k.call :: k.rest) x x' := by
      refine ⟨hclear, htame.calm, htame.sound x' hstep, .inl ?_, ?_, ?_⟩
      · refine htwins.within rfl hclear (Nat.succ_pos _) htame' fun hsome => ?_
        obtain ⟨b, hb⟩ := Option.ne_none_iff_exists'.mp hsome
        obtain ⟨hle, hlt⟩ := choosing_above hlayers hclear hlong hb
        exact choosing_frame htwins (Nat.lt_of_le_of_lt hle hlt)
      · intro ref args run _ hrun
        exact NativeCode.body_alike hhost rfl hrun args
      · intro b hb hlt
        exact absurd (choosing_above hlayers hclear hlong hb).1 (Nat.not_le_of_lt hlt)
    obtain ⟨y', hy, hnext | ⟨-, f, hf⟩⟩ := htwins.step hstep hallows
    · have hlong' := hlonger hnext
      refine .inl ⟨y', hy, hlong', .choosing ?_ hnext⟩
      refine (Config.Trace.cons hstep (.refl x')).waits hroom hlayers ?_ (by simp) ?_ hlong'
      · exact List.forall_mem_singleton.mpr htame.calm
      · exact List.forall_mem_singleton.mpr hlong
    · exact absurd hf (htame'.sound y' hy f)
  · exact .inr (choosing_done hlayers htwins hclear)

end Detour
end StackVM
