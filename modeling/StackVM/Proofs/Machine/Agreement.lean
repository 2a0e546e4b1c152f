import StackVM.Proofs.Machine.Detour.Compared

/-! # The two ways to call

A call of a value and a call of the native `call` with the value come to the same end, or neither
comes to one. They can be told apart where a closure looks at values below its frame, and in a run
that a native has deprived of the frames it was started over.
-/
namespace StackVM

/-- The first configuration is at a call of the value with the arguments, the second one at a call
of the native `call` with the value and the arguments, over the same values and in the same machine.
Both calls are tame at all their points. -/
structure Config.TwoWays (host : Host) (Uses : Config → Nat → Prop) (base : Base)
    (rest : List Pending) (below : Context) (m : Machine) (callee : Value) (args : List Value)
    (via : Function) (next next' : Nat) (c c' : Config) : Prop where
  calls : c.Calling base rest below m callee args next
  detour : c'.Calling base rest below m (.func via) (callee :: args) next'
  native : via.IsCall m.store
  tame : ∀ x, During host c x → x.Tame host Uses below.depth
  tame' : ∀ y, During host c' y → y.Tame host Uses below.depth

/-- A call and the same call by way of the native `call` agree, in a run in which no native has
emptied the context. If one of them ends so does the other: with the same value, in states that are
the same up to the next instruction; or with the same exception for the same handler or for whoever
started the run, and with the same machine. -/
theorem call_paths_agree {host : Host} {before below : Context} {base : Base}
    {start c c' : Config} {cs : List Config} {m : Machine} {callee : Value} {args : List Value}
    {via : Function} {next next' : Nat} (hhost : host.IgnoresStack)
    (hbefore : before.Reachable host) (hstart : Config.Begins before base start)
    (hrun : Config.Trace host start cs c)
    (hcs : ∀ x ∈ cs, ¬ x.Resets host ∧ ¬ x.Ended start.pending)
    (hways : Config.TwoWays host Config.Touches base start.pending below m callee args via next
      next' c c') :
    Config.Agree host base start.pending below next next' c c' := by
  obtain ⟨hcalls, hdetour, hvia, htame, htame'⟩ := hways
  obtain ⟨hstands, hroom, hspace⟩ := hcalls.stands hbefore hstart hrun hcs
  by_cases hfunc : ∃ f, callee = .func f
  · obtain ⟨f, rfl⟩ := hfunc
    exact hcalls.function_agrees hhost hdetour hvia hstands hroom hspace htame htame'
  · refine hcalls.value_agrees (fun f hf => ?_) hdetour hvia hstands hspace
    exact hfunc ⟨f, hf⟩

/-- A closure of this body is called over one value; from 7 on, the native `call` is. -/
def Machine.twofold (body : List Instr) : Machine where
  program := ⟨(([⟨.pushNull, ()⟩, ⟨.fetchGlobal, (1 : UInt16)⟩, ⟨.call, (0 : UInt8)⟩, ⟨.halt, ()⟩,
    ⟨.call, (1 : UInt8)⟩, ⟨.halt, ()⟩] : List Instr) ++ body).flatMap Instr.bytes |>.toArray⟩
  globals := ⟨#[("call", .func (.native ⟨0⟩)), ("f", .func (.closure ⟨0⟩))]⟩
  phase := .linking
  store := { Store.empty with
    natives := #[⟨"call", .builtin .call⟩]
    closures := #[⟨10, 0, 0, [], []⟩] }

/-- The call of the closure. -/
def Config.straight (body : List Instr) : Config :=
  ⟨.run ⟨0, 0, false⟩ 4, [], ⟨.twofold body, ⟨[.func (.closure ⟨0⟩), .null], [], []⟩⟩⟩

/-- The call of the native with the closure. -/
def Config.roundabout (body : List Instr) : Config :=
  ⟨.run ⟨0, 0, false⟩ 7, [], ⟨.twofold body,
    ⟨[.func (.native ⟨0⟩), .func (.closure ⟨0⟩), .null], [], []⟩⟩⟩

/-- The body catches an exception of its own and returns it. -/
def Instr.forgiving : List Instr :=
  [⟨.tryStart, (2 : Int16)⟩, ⟨.pushTrue, ()⟩, ⟨.throw, ()⟩, ⟨.ret, ()⟩]

theorem Host.none_ignoresStack : Host.none.IgnoresStack := by
  intro key run h
  cases h

theorem call_paths_agree_forgiving :
    (∃ cs, Config.Trace Host.none ((Machine.twofold Instr.forgiving).runConfig .new 0) cs
      (Config.straight Instr.forgiving) ∧ ∀ x ∈ cs, ¬ x.Resets Host.none ∧ ¬ x.Ended []) ∧
    Config.TwoWays Host.none Config.Touches ⟨0, 0, false⟩ [] ⟨[.null], [], []⟩
      (.twofold Instr.forgiving) (.func (.closure ⟨0⟩)) [] (.native ⟨0⟩) 6 9
      (Config.straight Instr.forgiving) (Config.roundabout Instr.forgiving) ∧
    ∃ z d z' d', Config.Ends Host.none (Config.straight Instr.forgiving) z d ∧
      Config.Ends Host.none (Config.roundabout Instr.forgiving) z' d' ∧
      Config.EndAlike ⟨0, 0, false⟩ [] ⟨[.null], [], []⟩ 6 9 z d z' d' := by
  have hrun : Config.Trace Host.none ((Machine.twofold Instr.forgiving).runConfig .new 0) _
      (Config.straight Instr.forgiving) := Config.trace_path Host.none 2 _
  have hcs : ∀ x ∈ (Config.path Host.none 2
      ((Machine.twofold Instr.forgiving).runConfig .new 0)).1,
      ¬ x.Resets Host.none ∧ ¬ x.Ended [] := Config.calm_of_path (by decide) []
  have hways : Config.TwoWays Host.none Config.Touches ⟨0, 0, false⟩ [] ⟨[.null], [], []⟩
      (.twofold Instr.forgiving) (.func (.closure ⟨0⟩)) [] (.native ⟨0⟩) 6 9
      (Config.straight Instr.forgiving) (Config.roundabout Instr.forgiving) :=
    ⟨.intro rfl rfl, .intro rfl rfl, .native rfl,
      Config.tame_of_path (n := 7) (by decide) (by decide),
      Config.tame_of_path (n := 10) (by decide) (by decide)⟩
  have hends : Config.Ends Host.none (Config.straight Instr.forgiving) _ _ :=
    Config.ends_of_path (n := 6) (by decide) (by decide) (by decide)
  obtain ⟨z', d', hends', halike⟩ := (call_paths_agree Host.none_ignoresStack .new
    (.outer (.twofold Instr.forgiving) .new 0) hrun hcs hways).1 _ _ hends
  exact ⟨⟨_, hrun, hcs⟩, hways, _, _, z', d', hends, hends', halike⟩

/-- The body returns a copy of the value that it finds. -/
def Instr.curious : List Instr := [⟨.dup, ()⟩, ⟨.ret, ()⟩]

/-- A host whose natives empty the context. -/
def Host.wiping : Host := fun _ => .contextual fun _ _ => .reset (.done (.ok .null))

theorem Host.wiping_ignoresStack : Host.wiping.IgnoresStack := by
  intro key run h
  cases h
  exact fun _ _ _ _ => .reset (.done _)

/-- The native `call` is called with a closure at 8, which calls a native of the host and then a
closure that returns at once; from 19 on, the native `call` is called instead. -/
def Machine.wiped : Machine where
  program := ⟨([⟨.fetchGlobal, (1 : UInt16)⟩, ⟨.fetchGlobal, (0 : UInt16)⟩, ⟨.call, (1 : UInt8)⟩,
    ⟨.fetchGlobal, (2 : UInt16)⟩, ⟨.call, (0 : UInt8)⟩, ⟨.fetchGlobal, (3 : UInt16)⟩,
    ⟨.call, (0 : UInt8)⟩, ⟨.halt, ()⟩, ⟨.call, (1 : UInt8)⟩, ⟨.pushTrue, ()⟩, ⟨.ret, ()⟩] :
      List Instr).flatMap Instr.bytes |>.toArray⟩
  globals := ⟨#[("call", .func (.native ⟨0⟩)), ("outer", .func (.closure ⟨0⟩)),
    ("wipe", .func (.native ⟨1⟩)), ("f", .func (.closure ⟨1⟩))]⟩
  phase := .linking
  store := { Store.empty with
    natives := #[⟨"call", .builtin .call⟩, ⟨"wipe", .host 0⟩]
    closures := #[⟨8, 0, 0, [], []⟩, ⟨21, 0, 0, [], []⟩] }

/-- The call of the closure, in the run that has lost its frame. -/
def Config.bereft : Config := (path Host.wiping 11 (Machine.wiped.runConfig .new 0)).2

/-- The call of the native with the closure, in the same run. -/
def Config.bereftRoundabout : Config :=
  ⟨.run ⟨0, 0, true⟩ 19, Config.bereft.pending, ⟨Config.bereft.state.machine,
    ⟨[.func (.native ⟨0⟩), .func (.closure ⟨1⟩), .null], [], []⟩⟩⟩

/-- The calls do not end alike if one of them goes on in the run and the other one elsewhere, or if
they leave different values. -/
theorem Config.not_agree {host : Host} {base : Base} {rest : List Pending} {below : Context}
    {next next' : Nat} {c c' z d z' d' : Config} (hends : Ends host c z d)
    (hends' : Ends host c' z' d') (hcontrol : d'.control ≠ d.control)
    (hdiffer : d.control = .run base next → d'.state.context.stack ≠ d.state.context.stack) :
    ¬ Agree host base rest below next next' c c' := by
  intro hagree
  obtain ⟨_, _, hend, halike⟩ := hagree.1 z d hends
  obtain ⟨rfl, rfl⟩ := hends'.unique hend
  cases halike with
  | returns v m _ _ hd hd' =>
    subst hd hd'
    exact hdiffer rfl rfl
  | raises _ _ _ _ _ _ hsame => exact hcontrol hsame.control

/-- The two ways to call need not agree if the callee looks at values that it does not take, nor in
a run that a native has deprived of its frame. -/
theorem call_paths_differ :
    ((∃ cs, Config.Trace Host.none ((Machine.twofold Instr.curious).runConfig .new 0) cs
        (Config.straight Instr.curious) ∧ ∀ x ∈ cs, ¬ x.Resets Host.none ∧ ¬ x.Ended []) ∧
      Config.TwoWays Host.none Config.Removes ⟨0, 0, false⟩ [] ⟨[.null], [], []⟩
        (.twofold Instr.curious) (.func (.closure ⟨0⟩)) [] (.native ⟨0⟩) 6 9
        (Config.straight Instr.curious) (Config.roundabout Instr.curious) ∧
      ¬ Config.Agree Host.none ⟨0, 0, false⟩ [] ⟨[.null], [], []⟩ 6 9
        (Config.straight Instr.curious) (Config.roundabout Instr.curious)) ∧
    Host.wiping.IgnoresStack ∧
    Config.Reaches Host.wiping (Machine.wiped.runConfig .new 0) Config.bereft ∧
    Config.TwoWays Host.wiping Config.Touches ⟨0, 0, true⟩ Config.bereft.pending
      ⟨[.null], [], []⟩ Config.bereft.state.machine (.func (.closure ⟨1⟩)) [] (.native ⟨0⟩) 18 21
      Config.bereft Config.bereftRoundabout ∧
    ¬ Config.Agree Host.wiping ⟨0, 0, true⟩ Config.bereft.pending ⟨[.null], [], []⟩ 18 21
      Config.bereft Config.bereftRoundabout := by
  refine ⟨⟨⟨_, Config.trace_path Host.none 2 _, Config.calm_of_path (by decide) []⟩, ?_, ?_⟩,
    Host.wiping_ignoresStack, (Config.trace_path Host.wiping 11 _).reaches, ?_, ?_⟩
  · exact ⟨.intro rfl rfl, .intro rfl rfl, .native rfl,
      Config.tame_of_path (n := 5) (by decide) (by decide),
      Config.tame_of_path (n := 8) (by decide) (by decide)⟩
  · refine Config.not_agree (Config.ends_of_path (n := 4) (by decide) (by decide) (by decide))
      (Config.ends_of_path (n := 7) (by decide) (by decide) (by decide)) nofun fun _ => nofun
  · exact ⟨.intro rfl rfl, .intro rfl rfl, .native rfl,
      Config.tame_of_path (n := 5) (by decide) (by decide),
      Config.tame_of_path (n := 8) (by decide) (by decide)⟩
  · exact Config.not_agree (Config.ends_of_path (n := 4) (by decide) (by decide) (by decide))
      (Config.ends_of_path (n := 7) (by decide) (by decide) (by decide)) nofun nofun

end StackVM
