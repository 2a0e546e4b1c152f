import StackVM.Proofs.Machine.Coherence.Primitives

/-! # Instructions keep references alive

What an instruction hands on exists: each value it works with was on the stack, in a global, in a
variable or in a container, or it has just been made.
-/
namespace StackVM
namespace Exec
variable {α β : Type} {s s' : State} {x : Exec α} {f : α → Exec β} {pos next n : Nat} {base : Base}

theorem pushNext_upholds (hs : s.Coherent) {v : Value} (hv : v.Live s.machine.store) :
    Upholds s Step.Live (pushNext pos v) :=
  (push_upholds hs hv).bind fun _ _ hdevelops _ => .pure hdevelops.coherent trivial

theorem dup_upholds (hs : s.Coherent) : Upholds s Step.Live (dup pos) :=
  .read hs reads_peek fun _ hpeek => pushNext_upholds hs (live_of_peek hs hpeek)

theorem drop_upholds (hs : s.Coherent) : Upholds s Step.Live (drop pos) :=
  (pop_upholds hs).bind fun _ _ hdevelops _ => .pure hdevelops.coherent trivial

theorem throw_upholds (hs : s.Coherent) : Upholds s Step.Live (throw pos) :=
  (pop_upholds hs).bind fun _ _ hdevelops hv => .pure hdevelops.coherent hv

theorem call_upholds (hs : s.Coherent) (count : Nat) : Upholds s Step.Live (call pos count) := by
  refine .read hs (reads_require _) fun _ _ => .read hs reads_peek fun v hpeek => ?_
  split
  next f =>
    refine .read hs (reads_top _) fun values hvalues => .pure hs ?_
    exact ⟨live_of_peek hs hpeek,
      fun v hv => live_of_top hs hvalues v (List.mem_of_mem_take hv)⟩
  next =>
    refine (create_upholds hs (hs.machine.store.newError _ _ _)).bind fun exception t ht hv => ?_
    refine (discard_upholds ht.coherent _).bind fun _ u hu _ => .pure hu.coherent ?_
    exact hv.mono hu.grows

theorem halt_upholds (hs : s.Coherent) : Upholds s Step.Live (halt base pos) := by
  refine .ite (fun _ => .fault hs) fun _ => .read hs reads_context fun c hc => ?_
  cases hc
  split
  next v rest hstack =>
    have hv : v.Live s.machine.store := hs.stack v (by simp [hstack])
    refine (discard_upholds hs 1).bind fun _ t ht _ => .pure ht.coherent ?_
    exact hv.mono ht.grows
  next => exact .fault hs

theorem globalUndefined_upholds {post : α → State → Prop} (hs : s.Coherent) (index : Nat) :
    Upholds s post (globalUndefined pos index) := .read hs reads_machine fun _ _ => .fault hs

theorem popFunction_upholds (hs : s.Coherent) {define : Function → Exec Unit}
    (hdefine : ∀ f t, s.Develops t → f.Live t.machine.store →
      Upholds t (fun _ _ => True) (define f)) : Upholds s Step.Live (popFunction pos define) := by
  refine (pop_upholds hs).bind fun v t ht hv => ?_
  split
  next f =>
    refine (hdefine f t ht hv).bind fun _ u hu _ => .pure hu.coherent trivial
  next =>
    have herror := ht.coherent.machine.store.newError "InvalidDefinition" "found" v.typeName
    exact (create_upholds ht.coherent herror).bind fun _ u hu hv => .pure hu.coherent hv

theorem fetchGlobal_upholds (hs : s.Coherent) (index : Nat) :
    Upholds s Step.Live (fetchGlobal pos index) := by
  refine .read hs reads_machine fun m hm => ?_
  cases hm
  split
  next v hv =>
    refine .ite (fun _ => globalUndefined_upholds hs index) fun _ => ?_
    exact pushNext_upholds hs (hs.machine.get?_live hv)
  next => exact globalUndefined_upholds hs index

theorem storeGlobal_upholds (hs : s.Coherent) (index : Nat) :
    Upholds s Step.Live (storeGlobal pos index) := by
  refine .read hs reads_machine fun m _ => .ite (fun _ => ?_) fun _ => globalUndefined_upholds hs _
  refine (pop_upholds hs).bind fun v t ht hv => ?_
  exact (setGlobal_upholds ht.coherent hv index).bind fun _ u hu _ => .pure hu.coherent trivial

theorem globalDefined_upholds (hs : s.Coherent) (index : Nat) :
    Upholds s Step.Live (globalDefined pos index) :=
  .read hs reads_machine fun _ _ => pushNext_upholds hs trivial

theorem defGlobalFun_upholds (hs : s.Coherent) (index : Nat) :
    Upholds s Step.Live (defGlobalFun pos index) := by
  refine .read hs reads_machine fun m hm => ?_
  cases hm
  split
  next => exact globalUndefined_upholds hs index
  next current hcurrent =>
    have hlive := hs.machine.get?_live hcurrent
    refine popFunction_upholds hs fun f t ht hf => .read ht.coherent reads_machine fun m _ => ?_
    have hmerged := ht.coherent.machine.store.defineOverload (hlive.mono ht.grows) hf
    refine (create_upholds ht.coherent (hmerged _)).bind fun merged u hu hv => ?_
    exact setGlobal_upholds hu.coherent hv index

theorem storeSlot_upholds (hs : s.Coherent) (r : LocalsRef) (slot : UInt8) :
    Upholds s Step.Live (storeSlot pos r slot) := by
  refine (pop_upholds hs).bind fun v t ht hv => ?_
  exact (setSlot_upholds ht.coherent hv r slot).bind fun _ u hu _ => .pure hu.coherent trivial

theorem live_of_slot? (hs : s.Coherent) {r : LocalsRef} {slot : UInt8} {v : Value}
    (h : ((s.machine.store.slots r)[slot.toNat]?) = some v) : v.Live s.machine.store :=
  hs.machine.store.slots_live r v (Array.mem_of_getElem? h)

theorem defSlotFun_upholds (hs : s.Coherent) (r : LocalsRef) (slot : UInt8) (name : String) :
    Upholds s Step.Live (defSlotFun pos r slot name) := by
  refine popFunction_upholds hs fun f t ht hf => ?_
  refine .read ht.coherent (reads_slot? r slot) fun found hfound => ?_
  have hcurrent : (found.getD .undef).Live t.machine.store := by
    cases hfound
    cases hv : (t.machine.store.slots r)[slot.toNat]? with
    | none => trivial
    | some v => exact live_of_slot? ht.coherent hv
  have hmerged := ht.coherent.machine.store.defineOverload hcurrent hf name
  refine (create_upholds ht.coherent hmerged).bind fun merged u hu hv => ?_
  exact setSlot_upholds hu.coherent hv r slot

theorem live_of_locate (hs : s.Coherent) {a : Address} {r : LocalsRef} {v : Value}
    (h : locate pos a s = .ok (r, v) s') : v.Live s.machine.store := by
  obtain ⟨rfl, f, fs, hframes, hcell⟩ := locate_eq_ok h
  obtain ⟨w, hw⟩ := Option.isSome_iff_exists.mp (Frame.cell?_eq_some_iff.mp hcell).2.2
  rw [locate_apply hframes hcell hw] at h
  cases h
  exact live_of_slot? hs hw

theorem fetch_upholds (hs : s.Coherent) (a : Address) (cause : Cause) :
    Upholds s Step.Live (locate pos a >>= fun found =>
      if found.2.isUndef then fault pos cause else pushNext pos found.2) := by
  refine .read hs (reads_locate a) fun found hfound => .ite (fun _ => .fault hs) fun _ => ?_
  exact pushNext_upholds hs (live_of_locate hs hfound)

theorem store_upholds (hs : s.Coherent) (a : Address) :
    Upholds s Step.Live (locate pos a >>= fun found => storeSlot pos found.1 a.slot) :=
  .read hs (reads_locate a) fun found _ => storeSlot_upholds hs found.1 a.slot

theorem define_upholds (hs : s.Coherent) (a : Address) (name : String) :
    Upholds s Step.Live (locate pos a >>= fun found => defSlotFun pos found.1 a.slot name) :=
  .read hs (reads_locate a) fun found _ => defSlotFun_upholds hs found.1 a.slot name

theorem makeArr_upholds (hs : s.Coherent) (count : Nat) :
    Upholds s Step.Live (makeArr pos count) := by
  refine (popN_upholds hs).bind fun items t ht hitems => ?_
  have hmade := ht.coherent.machine.store.newArr fun v hv => hitems v (List.mem_toArray.mp hv)
  exact (pushNew_upholds ht.coherent hmade).bind fun _ u hu _ => .pure hu.coherent trivial

theorem makeStr_upholds (hs : s.Coherent) (count : Nat) :
    Upholds s Step.Live (makeStr pos count) := by
  refine .read hs (reads_top count) fun parts _ => ?_
  split
  · exact .fault hs
  · exact (discard_upholds hs count).bind fun _ t ht _ => pushNext_upholds ht.coherent trivial

theorem live_of_gatherEntries {st : Store} {entries : Entries} {flat : List Value}
    (hentries : ∀ p ∈ entries, p.2.Live st) (hflat : ∀ v ∈ flat, v.Live st) :
    match gatherEntries entries flat with
    | .ok made => ∀ p ∈ made, p.2.Live st
    | .error found => found.Live st := by
  induction entries, flat using gatherEntries.induct with
  | case1 entries k v rest key hkey ih =>
    obtain ⟨-, hrest⟩ := List.forall_mem_cons.mp hflat
    obtain ⟨hv, hrest⟩ := List.forall_mem_cons.mp hrest
    rw [gatherEntries, hkey]
    refine ih (fun p hp => ?_) hrest
    rcases Entries.mem_insert hp with hold | rfl
    · exact hentries p hold
    · exact hv
  | case2 entries k v rest hkey =>
    rw [gatherEntries, hkey]
    exact hflat k List.mem_cons_self
  | case3 entries flat hshort =>
    rw [gatherEntries]
    · exact hentries
    · exact hshort

theorem makeHash_upholds (hs : s.Coherent) (pairs : Nat) :
    Upholds s Step.Live (makeHash pos pairs) := by
  refine (popN_upholds hs).bind fun flat t ht hflat => ?_
  have hgathered := live_of_gatherEntries (List.forall_mem_nil _) hflat
  split
  next entries hentries =>
    rw [hentries] at hgathered
    have hmade := ht.coherent.machine.store.newHash hgathered
    exact (pushNew_upholds ht.coherent hmade).bind fun _ u hu _ => .pure hu.coherent trivial
  next found _ =>
    have herror := ht.coherent.machine.store.newError "InvalidHashKey" "found" found.typeName
    exact (create_upholds ht.coherent herror).bind fun _ u hu hv => .pure hu.coherent hv

theorem lt_size_of_jumpTarget {offset : Int16} {t : Nat}
    (ht : jumpTarget pos next offset s = .ok t s') : t < s.machine.program.size := by
  simp only [jumpTarget, bind_apply, machine] at ht
  cases hfound : (relativeTarget? next offset).filter (· < s.machine.program.size) with
  | none => simp [hfound, fault] at ht
  | some target =>
    simp only [hfound] at ht
    cases ht
    simpa using (Option.filter_eq_some_iff.mp hfound).2

theorem length_of_mapM {g : β → Exec α} {bs : List β} {as : List α} (h : bs.mapM g s = .ok as s') :
    as.length = bs.length := by
  induction bs generalizing s as with
  | nil =>
    cases h
    rfl
  | cons b bs ih =>
    rw [List.mapM_cons, bind_apply] at h
    cases hb : g b s with
    | error e t => simp [hb] at h
    | ok a t =>
      simp only [hb, bind_apply] at h
      cases hbs : bs.mapM g t with
      | error e u => simp [hbs] at h
      | ok as' u =>
        simp only [hbs] at h
        cases h
        simp [ih hbs]

/-- The types are taken from as many values as there are parameters, and the checks see to the
slots and to the entry. -/
theorem makeClosure_upholds (hs : s.Coherent) (e : EntryPoint) :
    Upholds s Step.Live (makeClosure pos next e) := by
  refine .ite (fun _ => .fault hs) fun hslots => ?_
  refine .read hs (reads_jumpTarget e.offset) fun entry hentry => ?_
  refine .read hs (reads_top e.params.toNat) fun declared hdeclared => ?_
  refine .read hs (reads_mapM reads_paramType declared) fun paramTypes htypes => ?_
  have hcount : declared.length = e.params.toNat := by
    have hle := le_sp_of_top hdeclared
    unfold top at hdeclared
    rw [if_neg (Nat.not_lt.mpr hle)] at hdeclared
    cases hdeclared
    rw [List.length_reverse, List.length_take]
    exact Nat.min_eq_left hle
  refine (discard_upholds hs e.params.toNat).bind fun _ t ht hmachine => ?_
  refine .read ht.coherent reads_context fun c _ => ?_
  refine (pushNew_upholds ht.coherent (ht.coherent.machine.store.newClosure ?_)).bind
    fun _ u hu _ => .pure hu.coherent trivial
  rw [hmachine]
  exact ⟨(length_of_mapM htypes).trans hcount, UInt8.not_lt.mp hslots, lt_size_of_jumpTarget hentry⟩

theorem convert_upholds (hs : s.Coherent) {g : Value → Store → Value}
    (hg : ∀ v st, (g v st).Live st) :
    Upholds s Step.Live (do let v ← pop pos; push pos (g v (← store)); return Step.next) := by
  refine (pop_upholds hs).bind fun v t ht _ => .read ht.coherent reads_store fun st hst => ?_
  cases hst
  exact pushNext_upholds ht.coherent (hg v _)

theorem resolveGlobal_upholds (hs : s.Coherent) : Upholds s Step.Live (resolveGlobal pos) := by
  refine .read hs reads_peek fun v _ => ?_
  split
  next name _ =>
    refine (resolveName_upholds hs name).bind fun index t ht _ => ?_
    exact (discard_upholds ht.coherent 1).bind fun _ u hu _ => pushNext_upholds hu.coherent trivial
  next => exact .fault hs

/-- A patch overwrites bytes, so closures still fit. -/
theorem writeOperand_upholds (hs : s.Coherent) (target index : UInt16) :
    Upholds s Step.Live (writeOperand pos target index) := by
  refine .read hs reads_machine fun m hm => .ite (fun _ => ?_) fun _ => .fault hs
  refine (discard_upholds hs 1).bind fun _ t ht hmachine => ?_
  split
  next program hwrite =>
    cases hm
    rw [← hmachine] at hwrite
    have hsize := Nat.le_of_eq (Program.writeWord_eq_ok hwrite).1.symm
    have hpatched : Upholds t (fun _ _ => True)
        (modifyMachine fun m => { m with program := program }) :=
      ⟨ht.coherent.withMachine (.refl _) (ht.coherent.machine.withProgram hsize _), trivial⟩
    exact hpatched.bind fun _ u hu _ => .pure hu.coherent trivial
  next => exact .fault ht.coherent

theorem patch_upholds (hs : s.Coherent) (target : UInt16) :
    Upholds s Step.Live (patch pos target) := by
  refine .read hs reads_machine fun m _ => .ite (fun _ => ?_) fun _ => .fault hs
  refine .read hs reads_peek fun v _ => ?_
  split
  · split
    · exact writeOperand_upholds hs target _
    · exact .fault hs
  · exact .fault hs

theorem initDone_upholds (hs : s.Coherent) : Upholds s Step.Live initDone := by
  have hdone : Upholds s (fun _ _ => True)
      (modifyMachine fun m => if m.phase = .linking then { m with phase := .running } else m) := by
    refine ⟨hs.withMachine ?_ ?_, trivial⟩
    · dsimp only
      split <;> exact .refl _
    · dsimp only
      split
      · exact hs.machine.withProgram (Nat.le_refl _) .running
      · exact hs.machine
  exact hdone.bind fun _ t ht _ => .pure ht.coherent trivial

theorem branch_upholds (hs : s.Coherent) (offset : Int16) (wanted : Bool) :
    Upholds s Step.Live (branch pos next offset wanted) := by
  refine .read hs (reads_jumpTarget offset) fun target _ => (pop_upholds hs).bind fun v t ht _ => ?_
  refine .read ht.coherent reads_store fun st _ => .ite (fun _ => ?_) fun _ => ?_
  · exact .pure ht.coherent trivial
  · exact .pure ht.coherent trivial

theorem tryStart_upholds (hs : s.Coherent) (offset : Int16) :
    Upholds s Step.Live (tryStart pos next offset) := by
  refine .read hs (reads_jumpTarget offset) fun catchIp _ => .read hs reads_context fun c _ => ?_
  exact (pushHandler_upholds hs _).bind fun _ t ht _ => .pure ht.coherent trivial

theorem tryEnd_upholds (hs : s.Coherent) : Upholds s Step.Live (tryEnd base pos) := by
  refine .read hs reads_context fun c _ => .ite (fun _ => ?_) fun _ => .fault hs
  refine (modifyContext_upholds hs fun _ => id).bind fun _ t ht _ => .pure ht.coherent trivial

theorem mem_of_mem_keepOldest {v : α} {xs : List α} (h : v ∈ keepOldest n xs) : v ∈ xs :=
  (keepOldest_suffix n xs).mem h

theorem ret_upholds (hs : s.Coherent) : Upholds s Step.Live (ret base pos) := by
  refine .read hs reads_frame fun f _ => .read hs reads_context fun c _ => ?_
  refine .ite (fun _ => .fault hs) fun _ => .read hs reads_context fun c _ => ?_
  refine .ite (fun _ => .fault hs) fun _ => (pop_upholds hs).bind fun v t ht hv => ?_
  refine (modifyContext_upholds ht.coherent ?_).bind fun _ u hu _ => ?_
  · exact fun _ => mem_of_mem_keepOldest
  · have hlive := hv.mono hu.grows
    refine .ite (fun _ => .pure hu.coherent hlive) fun _ => ?_
    exact (push_upholds hu.coherent hlive).bind fun _ w hw _ => .pure hw.coherent trivial

theorem unwind_upholds (hs : s.Coherent) {v : Value} (hv : v.Live s.machine.store) :
    Upholds s (fun u s' => ∀ w, u = .uncaught w → w.Live s'.machine.store)
      (unwind base pos v) := by
  refine .read hs reads_context fun c _ => ?_
  split
  next h _ =>
    refine .ite (fun _ => ?_) fun _ => .fault hs
    have hcaught : Upholds s (fun _ _ => True) (modifyContext fun c =>
        { stack := v :: keepOldest h.sp c.stack
          frames := keepOldest h.frames c.frames
          handlers := c.handlers.tail }) := by
      refine ⟨hs.withContext (List.forall_mem_cons.mpr ⟨hv, fun w hw => ?_⟩), trivial⟩
      exact hs.stack w (mem_of_mem_keepOldest hw)
    exact hcaught.bind fun _ t ht _ => .pure ht.coherent nofun
  next =>
    split
    next f _ =>
      refine (modifyContext_upholds hs fun _ => mem_of_mem_keepOldest).bind fun _ t ht _ => ?_
      refine .pure ht.coherent ?_
      rintro w ⟨⟩
      exact hv.mono ht.grows
    next =>
      refine .pure hs ?_
      rintro w ⟨⟩
      exact hv

theorem instr_upholds (hs : s.Coherent) (base : Base) (pos next : Nat) (i : Instr) :
    Upholds s Step.Live (instr base pos next i) := by
  obtain ⟨op, x⟩ := i
  cases op with
  | pushNull | pushFalse | pushTrue | pushUndef | pushInt | pushText | pushEmptyStr =>
    exact pushNext_upholds hs trivial
  | halt => exact halt_upholds hs
  | dup => exact dup_upholds hs
  | pop => exact drop_upholds hs
  | resolveGlobal => exact resolveGlobal_upholds hs
  | patch => exact patch_upholds hs _
  | initDone => exact initDone_upholds hs
  | fetchGlobal => exact fetchGlobal_upholds hs _
  | storeGlobal => exact storeGlobal_upholds hs _
  | globalDefined => exact globalDefined_upholds hs _
  | defGlobalFun => exact defGlobalFun_upholds hs _
  | fetchLocal => exact fetch_upholds hs (.own x) _
  | storeLocal => exact store_upholds hs (.own x)
  | localDefined => exact .read hs (reads_localSlot x) fun _ _ => pushNext_upholds hs trivial
  | defLocalFun => exact define_upholds hs (.own x) _
  | fetchUpvar => exact fetch_upholds hs (.captured x) _
  | storeUpvar => exact store_upholds hs (.captured x)
  | upvarDefined => exact .read hs (reads_upvarSlot x) fun _ _ => pushNext_upholds hs trivial
  | defUpvarFun => exact define_upholds hs (.captured x) _
  | call => exact call_upholds hs _
  | ret => exact ret_upholds hs
  | jump => exact .read hs (reads_jumpTarget x) fun _ _ => .pure hs trivial
  | jumpTrue | jumpFalse => exact branch_upholds hs _ _
  | makeArr => exact makeArr_upholds hs _
  | makeStr => exact makeStr_upholds hs _
  | makeHash => exact makeHash_upholds hs _
  | makeClosure => exact makeClosure_upholds hs _
  | toStr => exact convert_upholds hs fun _ _ => trivial
  | toBool => exact convert_upholds hs fun _ _ => trivial
  | tryStart => exact tryStart_upholds hs _
  | tryEnd => exact tryEnd_upholds hs
  | throw => exact throw_upholds hs

end Exec
end StackVM
