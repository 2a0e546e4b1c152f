import StackVM.Proofs.Machine.Linking.Link

/-! # Linking resolves every reference

Running the code of links writes the index of each name into the operand of its site. Names only
grow while this goes on, so an index that has been written stays the right one, and the sites are
apart from each other and from the linking code, so what has been written stays where it is.
-/
namespace StackVM

/-- The operand at the site is the index of the name. -/
def Machine.Holds (m : Machine) (pair : String × Nat) : Prop :=
  ∃ index : UInt16, m.program.readWord? (pair.2 + 1) = some index ∧
    m.globals.check? pair.1 = some index.toNat

/-- What running links leaves of a machine. -/
structure Machine.LinkedBy (pairs : List (String × Nat)) (m m' : Machine) : Prop where
  phase : m'.phase = m.phase
  store : m'.store = m.store
  globals : m'.globals = m.globals.resolveAll (pairs.map Prod.fst)
  size : m'.program.size = m.program.size
  bytes : ∀ k, (∀ pair ∈ pairs, k ≠ pair.2 + 1 ∧ k ≠ pair.2 + 2) →
    m'.program.byte? k = m.program.byte? k
  holds : ∀ pair ∈ pairs, m'.Holds pair

theorem Linkable.apart {p : Program} {l : List (Nat × Instr)} {x y : String × Nat}
    (hl : Listing p 0 l) (hx : Linkable l x) (hy : Linkable l y) (hne : x.2 ≠ y.2) :
    x.2 + 3 ≤ y.2 ∨ y.2 + 3 ≤ x.2 := by
  obtain ⟨i, hi, higlobal⟩ := hx.site
  obtain ⟨j, hj, hjglobal⟩ := hy.site
  have hapart := hl.apart hi hj
  rw [Instr.size_of_takesGlobal higlobal, Instr.size_of_takesGlobal hjglobal] at hapart
  exact hapart.resolve_left fun hsame => hne hsame.1

namespace Machine.LinkedBy
variable {p r : Program} {l : List (Nat × Instr)} {pair : String × Nat}
  {pairs : List (String × Nat)} {m m' : Machine}

theorem nil (m : Machine) : m.LinkedBy [] m := ⟨rfl, rfl, rfl, rfl, by simp, by simp⟩

/-- The first link, then the others. What the first one wrote is written again with the same index,
or stays untouched. -/
theorem cons
    (h : LinkedBy pairs { m with program := r, globals := (m.globals.resolve pair.1).2 } m')
    (hl : Listing p 0 l) (hpairs : ∀ x ∈ pair :: pairs, Linkable l x)
    (hone : ∀ x ∈ pairs, x.2 = pair.2 → x.1 = pair.1)
    (hindex : (m.globals.resolve pair.1).1 ≤ 65535)
    (hwrite :
      m.program.writeWord (pair.2 + 1) (UInt16.ofNat (m.globals.resolve pair.1).1) = .ok r) :
    m.LinkedBy (pair :: pairs) m' := by
  obtain ⟨hsize, hbytes⟩ := Program.writeWord_eq_ok hwrite
  obtain ⟨hpair, hrest⟩ := List.forall_mem_cons.mp hpairs
  have hfirst : m'.Holds pair := by
    by_cases hagain : ∃ x ∈ pairs, x.2 = pair.2
    · obtain ⟨x, hx, hsite⟩ := hagain
      have hheld := h.holds x hx
      rwa [Machine.Holds, hsite, hone x hx hsite] at hheld
    · have hfar : ∀ x ∈ pairs, pair.2 + 3 ≤ x.2 ∨ x.2 + 3 ≤ pair.2 := by
        intro x hx
        exact hpair.apart hl (hrest x hx) fun heq => hagain ⟨x, hx, heq.symm⟩
      have hlow : m'.program.byte? (pair.2 + 1) = r.byte? (pair.2 + 1) := by
        apply h.bytes
        intro x hx
        have := hfar x hx
        omega
      have hhigh : m'.program.byte? (pair.2 + 2) = r.byte? (pair.2 + 2) := by
        apply h.bytes
        intro x hx
        have := hfar x hx
        omega
      refine ⟨_, (Program.readWord?_congr hlow hhigh).trans (Program.readWord?_of_writeWord hwrite),
        ?_⟩
      rw [UInt16.toNat_ofNat_of_lt' (Nat.lt_succ_of_le hindex), h.globals]
      exact (Globals.extends_resolveAll _ _).check? (Globals.check?_resolve _ _)
  constructor
  · exact h.phase
  · exact h.store
  · exact h.globals
  · exact h.size.trans hsize
  · intro k hk
    obtain ⟨hkpair, hkrest⟩ := List.forall_mem_cons.mp hk
    rw [h.bytes k hkrest]
    exact hbytes k hkpair.1 hkpair.2
  · exact List.forall_mem_cons.mpr ⟨hfirst, h.holds⟩

end Machine.LinkedBy

namespace Config
variable {host : Host} {base : Base} {pending : List Pending} {s : State} {p : Program}
  {l : List (Nat × Instr)} {pairs : List (String × Nat)} {a : Nat}

/-- Links one after the other: one pair at a time, while the names only grow. -/
theorem reaches_links (hl : Listing p 0 l) (hpairs : ∀ pair ∈ pairs, Linkable l pair)
    (hone : ∀ x ∈ pairs, ∀ y ∈ pairs, x.2 = y.2 → x.1 = y.1)
    (hp : Relinked p l s.machine.program) (hphase : s.machine.phase = .linking)
    (hroom : s.context.sp < Capacity.stack)
    (hfew : (s.machine.globals.resolveAll (pairs.map Prod.fst)).size ≤ 65536)
    (ha : a ∈ l.map Prod.fst ∨ a = p.size)
    (hat : HoldsAt p.bytes a ((pairs.flatMap linkInstrs).flatMap Instr.bytes)) :
    ∃ m', Reaches host ⟨.run base a, pending, s⟩
        ⟨.run base (a + ((pairs.flatMap linkInstrs).flatMap Instr.bytes).length), pending,
          ⟨m', s.context⟩⟩ ∧
      s.machine.LinkedBy pairs m' ∧ Relinked p l m'.program := by
  induction pairs generalizing s a with
  | nil => exact ⟨s.machine, .refl host _, .nil s.machine, hp⟩
  | cons pair pairs ih =>
    obtain ⟨hpair, hrest⟩ := List.forall_mem_cons.mp hpairs
    rw [List.flatMap_cons, List.flatMap_append] at hat
    obtain ⟨m, c⟩ := s
    have hgrow : (m.globals.resolve pair.1).2.Extends
        (m.globals.resolveAll ((pair :: pairs).map Prod.fst)) := Globals.extends_resolveAll _ _
    have hindex : (m.globals.resolve pair.1).1 ≤ 65535 := by
      have hlt := Globals.lt_size_of_check? (m.globals.check?_resolve pair.1)
      have hle := hgrow.size_le
      have htotal : (m.globals.resolveAll ((pair :: pairs).map Prod.fst)).size ≤ 65536 := hfew
      omega
    obtain ⟨r, hwrite⟩ := Exec.exists_writeWord (hp.patchable hl hpair)
      (UInt16.ofNat (m.globals.resolve pair.1).1)
    obtain ⟨hreach, hnext, hmore⟩ :=
      reaches_link hl hp hpair hphase hroom hindex ha hat hwrite
    obtain ⟨i, hm, hglobal⟩ := hpair.site
    let after : State :=
      ⟨{ m with program := r, globals := (m.globals.resolve pair.1).2 }, c⟩
    have hafter : Relinked p l after.machine.program := hp.writeWord hm hglobal hwrite
    have hothers : ∀ x ∈ pairs, ∀ y ∈ pairs, x.2 = y.2 → x.1 = y.1 := fun x hx y hy =>
      hone x (List.mem_cons_of_mem _ hx) y (List.mem_cons_of_mem _ hy)
    obtain ⟨m', hreach', hlinked, hp'⟩ :=
      ih (s := after) hrest hothers hafter hphase hroom hfew hnext hmore
    have hsame : ∀ x ∈ pairs, x.2 = pair.2 → x.1 = pair.1 := fun x hx =>
      hone x (List.mem_cons_of_mem _ hx) pair List.mem_cons_self
    refine ⟨m', ?_, hlinked.cons hl hpairs hsame hindex hwrite, hp'⟩
    rw [List.flatMap_cons, List.flatMap_append, List.length_append, ← Nat.add_assoc]
    exact Relation.ReflTransGen.trans hreach hreach'

/-- Links that are in place already change nothing. -/
theorem reaches_links_again (hl : Listing p 0 l) (hpairs : ∀ pair ∈ pairs, Linkable l pair)
    (hheld : ∀ pair ∈ pairs, s.machine.Holds pair) (hp : Relinked p l s.machine.program)
    (hphase : s.machine.phase = .linking) (hroom : s.context.sp < Capacity.stack)
    (ha : a ∈ l.map Prod.fst ∨ a = p.size)
    (hat : HoldsAt p.bytes a ((pairs.flatMap linkInstrs).flatMap Instr.bytes)) :
    Reaches host ⟨.run base a, pending, s⟩
      ⟨.run base (a + ((pairs.flatMap linkInstrs).flatMap Instr.bytes).length), pending, s⟩ := by
  induction pairs generalizing a with
  | nil => exact .refl host _
  | cons pair pairs ih =>
    obtain ⟨hpair, hrest⟩ := List.forall_mem_cons.mp hpairs
    obtain ⟨⟨index, hread, hcheck⟩, hheld⟩ := List.forall_mem_cons.mp hheld
    rw [List.flatMap_cons, List.flatMap_append] at hat
    have hresolve := Globals.resolve_of_check? hcheck
    have hwrite := Program.writeWord_of_readWord? hread
    obtain ⟨hreach, hnext, hmore⟩ := reaches_link hl hp hpair hphase hroom
      (by rw [hresolve]; exact Nat.le_of_lt_succ index.toNat_lt) ha hat
      (by rw [hresolve, UInt16.ofNat_toNat]; exact hwrite)
    rw [hresolve] at hreach
    rw [List.flatMap_cons, List.flatMap_append, List.length_append, ← Nat.add_assoc]
    exact Relation.ReflTransGen.trans hreach (ih hrest hheld hnext hmore)

end Config

/-- Take a program that decodes, pairs of names and sites of global accesses in it, where no site
has two names, and the code that a builder makes to link them, wherever an instruction of the
program starts. While linking, with a free place on the stack and few enough names, that code runs
to its end, leaves the context and the phase as they were and changes no byte but those of the
operands at the sites. Then each of these operands is the index of its name, the names that were
there before have their index and value, nothing is stored in the new ones, and running the code
again changes nothing. -/
theorem link_resolves {host : Host} {base : Base} {pending : List Pending} {s : State}
    {p : Program} {l : List (Nat × Instr)} {pairs : List (String × Nat)} {code : List UInt8}
    {start : Nat} (hl : p.decodeAll = .ok l) (hpairs : ∀ pair ∈ pairs, Linkable l pair)
    (hone : ∀ x ∈ pairs, ∀ y ∈ pairs, x.2 = y.2 → x.1 = y.1) (hcode : LinkCode pairs code)
    (hstart : start ∈ l.map Prod.fst ∨ start = p.size) (hat : HoldsAt p.bytes start code)
    (hprogram : s.machine.program = p) (hphase : s.machine.phase = .linking)
    (hroom : s.context.sp < Capacity.stack)
    (hfew : (s.machine.globals.resolveAll (pairs.map Prod.fst)).size ≤ 65536) :
    ∃ m : Machine,
      Config.Reaches host ⟨.run base start, pending, s⟩
        ⟨.run base (start + code.length), pending, ⟨m, s.context⟩⟩ ∧
      m.phase = .linking ∧
      m.program.size = p.size ∧
      (∀ k, (∀ pair ∈ pairs, k ≠ pair.2 + 1 ∧ k ≠ pair.2 + 2) →
        m.program.byte? k = p.byte? k) ∧
      (∀ pair ∈ pairs, ∃ index : UInt16, m.program.readWord? (pair.2 + 1) = some index ∧
        m.globals.check? pair.1 = some index.toNat) ∧
      (∀ name index, s.machine.globals.check? name = some index →
        m.globals.check? name = some index ∧
          m.globals.get? index = s.machine.globals.get? index) ∧
      (∀ name index, s.machine.globals.check? name = none →
        m.globals.check? name = some index → m.globals.get? index = some .undef) ∧
      ∀ base' pending' t, t.machine.program = m.program → t.machine.globals = m.globals →
        t.machine.phase = .linking → t.context.sp < Capacity.stack →
        Config.Reaches host ⟨.run base' start, pending', t⟩
          ⟨.run base' (start + code.length), pending', t⟩ := by
  have hlisting := Program.decodeAll_eq_ok_iff_listing.mp hl
  have hbytes := hcode.eq (fun pair hpair => (hpairs pair hpair).name)
    (fun pair hpair => Nat.lt_succ_of_le (hpairs pair hpair).address)
  subst hprogram hbytes
  obtain ⟨m, hreach, hlinked, hrelinked⟩ := Config.reaches_links hlisting hpairs hone
    (.refl _ l) hphase hroom hfew hstart hat
  have hgrow : s.machine.globals.Extends m.globals := by
    rw [hlinked.globals]
    exact Globals.extends_resolveAll _ _
  refine ⟨m, hreach, hlinked.phase.trans hphase, hlinked.size, hlinked.bytes, hlinked.holds, ?_, ?_,
    ?_⟩
  · intro name index hcheck
    exact ⟨hgrow.check? hcheck, hgrow.get? (Globals.lt_size_of_check? hcheck)⟩
  · intro name index hnew hcheck
    exact hgrow.get?_new hnew hcheck
  · intro base' pending' t htprogram htglobals htphase htroom
    have hheld : ∀ pair ∈ pairs, t.machine.Holds pair := by
      intro pair hpair
      rw [Machine.Holds, htprogram, htglobals]
      exact hlinked.holds pair hpair
    exact Config.reaches_links_again hlisting hpairs hheld (htprogram ▸ hrelinked) htphase htroom
      hstart hat

/-- Two links, to a later site and to an earlier one, and the accesses that they are for. -/
def Instr.twoLinks : List (Nat × Instr) :=
  [(0, ⟨.pushText, "y"⟩), (3, ⟨.resolveGlobal, ()⟩), (4, ⟨.patch, (19 : UInt16)⟩),
    (7, ⟨.pushText, "x"⟩), (10, ⟨.resolveGlobal, ()⟩), (11, ⟨.patch, (16 : UInt16)⟩),
    (14, ⟨.initDone, ()⟩), (15, ⟨.fetchGlobal, (0 : UInt16)⟩),
    (18, ⟨.storeGlobal, (0 : UInt16)⟩), (21, ⟨.halt, ()⟩)]

def State.twoLinks : State where
  machine :=
    { program := ⟨((Instr.twoLinks.map Prod.snd).flatMap Instr.bytes).toArray⟩
      globals := ⟨#[("w", .null), ("x", .bool true)]⟩
      phase := .linking
      store := .empty }
  context := ⟨[.null], [], []⟩

theorem linkCode_twoLinks :
    LinkCode [("y", 18), ("x", 15)] (State.twoLinks.machine.program.bytes.extract 0 14).toList := by
  refine ⟨0, [.label, .label], [.emit ⟨.initDone, ()⟩, .bind ⟨0⟩,
    .emit ⟨.fetchGlobal, (0 : UInt16)⟩, .bind ⟨1⟩, .emit ⟨.storeGlobal, (0 : UInt16)⟩,
    .emit ⟨.halt, ()⟩], [("y", ⟨1⟩), ("x", ⟨0⟩)], State.twoLinks.machine.program, ?_, ?_, rfl⟩
  · exact .cons ⟨rfl, rfl⟩ (.cons ⟨rfl, rfl⟩ .nil)
  · decide +kernel

theorem link_resolves_twoLinks :
    ∃ m, Config.Reaches Host.none ⟨.run ⟨0, 0, false⟩ 0, [], State.twoLinks⟩
        ⟨.run ⟨0, 0, false⟩ 14, [], ⟨m, State.twoLinks.context⟩⟩ ∧
      Config.Reaches Host.none ⟨.run ⟨0, 0, false⟩ 0, [], ⟨m, State.twoLinks.context⟩⟩
        ⟨.run ⟨0, 0, false⟩ 14, [], ⟨m, State.twoLinks.context⟩⟩ ∧
      m.globals.get? 1 = some (.bool true) ∧
      (∃ index : UInt16, m.program.readWord? 16 = some index ∧
        m.globals.check? "x" = some index.toNat) ∧
      ∃ index : UInt16, m.program.readWord? 19 = some index ∧
        m.globals.check? "y" = some index.toNat := by
  have hl : State.twoLinks.machine.program.decodeAll = .ok Instr.twoLinks :=
    Program.decodeAll_eq_ok_iff.mpr ⟨by decide +kernel, by decide +kernel⟩
  have hlast : Linkable Instr.twoLinks ("y", 18) :=
    ⟨⟨⟨.storeGlobal, (0 : UInt16)⟩, by decide, rfl⟩, by decide, by decide⟩
  have hfirst : Linkable Instr.twoLinks ("x", 15) :=
    ⟨⟨⟨.fetchGlobal, (0 : UInt16)⟩, by decide, rfl⟩, by decide, by decide⟩
  have hpairs : ∀ pair ∈ [("y", 18), ("x", 15)], Linkable Instr.twoLinks pair := by
    simp [hlast, hfirst]
  have hstart : 0 ∈ Instr.twoLinks.map Prod.fst ∨ 0 = State.twoLinks.machine.program.size :=
    .inl (by decide)
  have hat : HoldsAt State.twoLinks.machine.program.bytes 0
      (State.twoLinks.machine.program.bytes.extract 0 14).toList :=
    HoldsAt.iff_extract.mpr (by decide +kernel)
  obtain ⟨m, hreach, hphase, -, -, hheld, hold, -, hagain⟩ :=
    link_resolves (s := State.twoLinks) hl hpairs (by decide) linkCode_twoLinks hstart hat rfl rfl
      (by decide) (by decide +kernel)
  have hroom : State.twoLinks.context.sp < Capacity.stack := by decide
  refine ⟨m, hreach, hagain _ _ ⟨m, State.twoLinks.context⟩ rfl rfl hphase hroom, ?_,
    hheld ("x", 15) (by simp), hheld ("y", 18) (by simp)⟩
  exact (hold "x" 1 (by decide +kernel)).2

end StackVM
