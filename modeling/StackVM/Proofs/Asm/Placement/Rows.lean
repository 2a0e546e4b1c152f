import StackVM.Proofs.Asm.Placement.Invariant

/-! # Where assembled lines end up

Every line that carries a statement gives one instruction, in the order of the lines. Its literal
operands are the ones that were written, and a label in it stands for the offset of the first
instruction at or after the line that defines the label.
-/
namespace StackVM

/-- An instruction is what its arguments say, where labels stand for offsets and the next
instruction follows at `next`. -/
inductive Assembles (target : String → Nat → Prop) (next : Nat) : List Token → Instr → Prop
  | literal (i : Instr) : Assembles target next (i.opcode.shape.argumentTokens i.operand) i
  | branch {kind : Branch} {name : String} {offset : Nat} {d : Int16} :
      target name offset → relativeTarget? next d = some offset →
      Assembles target next [.ident name] (kind.instr d)
  | closure {name : String} {offset : Nat} {d : Int16} {params slots : UInt8} :
      target name offset → relativeTarget? next d = some offset →
      Assembles target next [.ident name, intToken params.toNat, intToken slots.toNat]
        ⟨.makeClosure, ⟨d, params, slots⟩⟩
  | patch {name : String} {offset : Nat} {address : UInt16} :
      target name offset → address.toNat = offset + 1 →
      Assembles target next [.ident name] ⟨.patch, address⟩

theorem Layout.resolve_size {l : Layout} {q : Placed} {i : Instr} (h : l.resolve q = .ok i) :
    i.size = q.stmt.skeleton.size ∧ i.opcode = q.stmt.skeleton.opcode := by
  obtain ⟨line, pos, stmt⟩ := q
  cases stmt with
  | plain j =>
    cases h
    exact ⟨rfl, rfl⟩
  | branch kind name =>
    obtain ⟨d, -, hi⟩ := bind_eq_ok_iff.mp h
    cases hi
    exact ⟨by simp [Stmt.skeleton, Branch.size_instr], by
      simp [Stmt.skeleton, Branch.opcode_instr]⟩
  | closure name params slots =>
    obtain ⟨d, -, hi⟩ := bind_eq_ok_iff.mp h
    cases hi
    exact ⟨rfl, rfl⟩
  | patch name =>
    obtain ⟨a, -, hi⟩ := bind_eq_ok_iff.mp h
    cases hi
    exact ⟨rfl, rfl⟩

theorem Layout.assembles_of_resolve {l : Layout} {q : Placed} {i : Instr}
    {target : String → Nat → Prop} (h : l.resolve q = .ok i)
    (htarget : ∀ name, q.stmt.target? = some name → target name (l.position name)) :
    Assembles target (q.pos + i.size) q.stmt.arguments i := by
  have hsize : i.size = q.stmt.size := (resolve_size h).1
  rw [hsize]
  obtain ⟨line, pos, stmt⟩ := q
  cases stmt with
  | plain j =>
    cases h
    exact .literal i
  | branch kind name =>
    obtain ⟨d, hd, hi⟩ := bind_eq_ok_iff.mp h
    cases hi
    exact .branch (htarget name rfl) (distanceTo_eq_ok_iff.mp hd)
  | closure name params slots =>
    obtain ⟨d, hd, hi⟩ := bind_eq_ok_iff.mp h
    cases hi
    exact .closure (htarget name rfl) (distanceTo_eq_ok_iff.mp hd)
  | patch name =>
    obtain ⟨a, ha, hi⟩ := bind_eq_ok_iff.mp h
    cases hi
    exact .patch (htarget name rfl) (operandAddress_eq_ok_iff.mp ha)

/-- An instruction of a program with its offset and the number of the line that it comes from. -/
structure Row where
  line : Nat
  pos : Nat
  instr : Instr
  deriving DecidableEq

/-- A label that one line defines stands for the first instruction at or after that line. -/
def LabelAt (source : List (List Token)) (rows : List Row) (size : Nat) (name : String)
    (offset : Nat) : Prop :=
  ∃ number,
    (∀ k, (∃ tokens, (tokens, k) ∈ source.zipIdx 1 ∧ (splitLabel tokens).1 = some name) ↔
      k = number) ∧
    offset = offsetAt (rows.map fun r => (r.line, r.pos)) size number

section Lines
variable {tokens : List (List Token)} {lines : List Line} {number : Nat}

theorem labelsOf_zipIdx (h : List.Forall₂ (fun ts line => parseLine ts = .ok line) tokens lines)
    (number : Nat) :
    labelsOf (lines.zipIdx number) =
      (tokens.zipIdx number).filterMap fun x => (splitLabel x.1).1.map fun name => (name, x.2) := by
  induction h generalizing number with
  | nil => rfl
  | cons hline _ ih =>
    have hlabel := (parseLine_eq_ok hline).1
    simp only [labelsOf] at ih
    simp only [labelsOf, List.zipIdx_cons, List.filterMap_cons, ih, hlabel]

theorem mem_labelsOf_zipIdx
    (h : List.Forall₂ (fun ts line => parseLine ts = .ok line) tokens lines) {name : String}
    {k : Nat} :
    (name, k) ∈ labelsOf (lines.zipIdx number) ↔
      ∃ ts, (ts, k) ∈ tokens.zipIdx number ∧ (splitLabel ts).1 = some name := by
  rw [labelsOf_zipIdx h, List.mem_filterMap]
  constructor
  · rintro ⟨⟨ts, n⟩, hmem, hlabel⟩
    obtain ⟨name', hname, heq⟩ := Option.map_eq_some_iff.mp hlabel
    cases heq
    exact ⟨ts, hmem, hname⟩
  · rintro ⟨ts, hmem, hname⟩
    exact ⟨(ts, k), hmem, by simp [hname]⟩

theorem stmtsOf_zipIdx (h : List.Forall₂ (fun ts line => parseLine ts = .ok line) tokens lines)
    (number : Nat) :
    (stmtsOf (lines.zipIdx number)).map Prod.snd =
      ((tokens.zipIdx number).filter fun x => carriesStatement x.1).map Prod.snd := by
  induction h generalizing number with
  | nil => rfl
  | @cons ts line _ _ hline _ ih =>
    have hsome := (parseBody_eq_ok (parseLine_eq_ok hline).2).1
    simp only [stmtsOf] at ih
    simp only [stmtsOf, List.zipIdx_cons, List.filterMap_cons, List.filter_cons, carriesStatement]
    rw [← hsome]
    cases line.stmt with
    | none => simpa [carriesStatement] using ih (number + 1)
    | some stmt => simpa [carriesStatement] using ih (number + 1)

theorem exists_tokens_of_mem
    (h : List.Forall₂ (fun ts line => parseLine ts = .ok line) tokens lines) {x : Line × Nat}
    (hx : x ∈ lines.zipIdx number) :
    ∃ ts, (ts, x.2) ∈ tokens.zipIdx number ∧ parseLine ts = .ok x.1 := by
  induction h generalizing number with
  | nil => simp at hx
  | @cons ts line _ _ hline _ ih =>
    rw [List.zipIdx_cons] at hx ⊢
    rcases List.mem_cons.mp hx with rfl | hx
    · exact ⟨ts, List.mem_cons_self, hline⟩
    · obtain ⟨ts', hmem, hparse⟩ := ih hx
      exact ⟨ts', List.mem_cons_of_mem _ hmem, hparse⟩

end Lines

/-- The rows of statements and the instructions that they resolve to. -/
theorem Layout.exists_rows {l : Layout} {placed : List Placed} {instrs : List Instr}
    (h : List.Forall₂ (fun q i => l.resolve q = .ok i) placed instrs) :
    ∃ rows : List Row, rows.map Row.instr = instrs ∧
      rows.map (fun r => (r.line, r.pos)) = placed.map (fun q => (q.line, q.pos)) ∧
      instrs.map Instr.size = (placed.map fun q => q.stmt.skeleton).map Instr.size ∧
      ∀ r ∈ rows, ∃ q ∈ placed, l.resolve q = .ok r.instr ∧ r.line = q.line ∧ r.pos = q.pos := by
  induction h with
  | nil => exact ⟨[], rfl, rfl, rfl, by simp⟩
  | @cons q i placed instrs hq _ ih =>
    obtain ⟨rows, hinstrs, hplaces, hsizes, hrows⟩ := ih
    have hsize := (resolve_size hq).1
    refine ⟨⟨q.line, q.pos, i⟩ :: rows, by simp [hinstrs], by simp [hplaces],
      by simp [hsizes, hsize], ?_⟩
    rw [List.forall_mem_cons]
    refine ⟨⟨q, List.mem_cons_self, hq, rfl, rfl⟩, fun r hr => ?_⟩
    obtain ⟨q', hq', hr'⟩ := hrows r hr
    exact ⟨q', List.mem_cons_of_mem _ hq', hr'⟩

/-- A program that a text assembles to has one instruction for each line that carries a statement,
in the order of the lines. Its opcode is the one that the line names, its literal operands are the
written ones, the distance in a branch, a handler or a closure leads from the next instruction to
the first instruction at or after the line of the label, or to the end of the program, and the
operand of a patch is the offset of that instruction plus one. -/
theorem assemble_places {text : String} {p : Program} (h : assemble text = .ok p) :
    ∃ (source : List (List Token)) (rows : List Row),
      (Text.lines text).mapM tokenize = .ok source ∧
      p.decodeAll = .ok (rows.map fun r => (r.pos, r.instr)) ∧
      rows.map Row.line =
        ((source.zipIdx 1).filter fun x => carriesStatement x.1).map Prod.snd ∧
      ∀ r ∈ rows, ∃ tokens mnemonic args, (tokens, r.line) ∈ source.zipIdx 1 ∧
        (splitLabel tokens).2 = .ident mnemonic :: args ∧
        Opcode.ofMnemonic? mnemonic.toUpper = some r.instr.opcode ∧
        Assembles (LabelAt source rows p.size) (r.pos + r.instr.size) args r.instr := by
  obtain ⟨l, instrs, hlayout, hdefined, hresolve, hprogram⟩ := exists_layout_of_assemble h
  obtain ⟨source, lines, htokens, hlines, hfits⟩ :=
    Layout.Fits.empty.addSources (by simp) hlayout
  rw [List.nil_append] at hfits
  obtain ⟨rows, hinstrs, hplaces, hsizes, hrows⟩ :=
    Layout.exists_rows (mapM_eq_ok_iff.mp hresolve)
  have hpos : rows.map Row.pos = l.statements.map Placed.pos := by
    simpa [Function.comp_def] using congrArg (List.map Prod.snd) hplaces
  have hline : rows.map Row.line = l.statements.map Placed.line := by
    simpa [Function.comp_def] using congrArg (List.map Prod.fst) hplaces
  have hsize : p.size = l.size := by
    rw [Program.size_of_ofInstrs hprogram, length_flatMap_bytes_congr hsizes, hfits.size]
    rfl
  refine ⟨source, rows, mapM_eq_ok_iff.mpr htokens, ?_, ?_, ?_⟩
  · rw [Program.decodeAll_eq_ok_iff]
    have hsnd : (rows.map fun r => (r.pos, r.instr)).map Prod.snd = instrs := by simp [← hinstrs]
    have hfst : (rows.map fun r => (r.pos, r.instr)).map Prod.fst = offsetsFrom 0 instrs := by
      rw [offsetsFrom_congr hsizes, List.map_map]
      exact hpos.trans hfits.offsets
    rw [hsnd, hfst]
    exact ⟨hprogram, rfl⟩
  · rw [hline, ← stmtsOf_zipIdx hlines, ← hfits.stmts]
    simp
  · intro r hr
    obtain ⟨q, hq, hinstr, hrline, hrpos⟩ := hrows r hr
    obtain ⟨x, hx, hstmt, hxline⟩ := hfits.line_mem hq
    obtain ⟨tokens, hmem, hparse⟩ := exists_tokens_of_mem hlines hx
    obtain ⟨mnemonic, hbody, hop⟩ := (parseBody_eq_ok (parseLine_eq_ok hparse).2).2 _ hstmt
    refine ⟨tokens, mnemonic, q.stmt.arguments, ?_, hbody, ?_, ?_⟩
    · rw [hrline, ← hxline]
      exact hmem
    · rw [hop, (Layout.resolve_size hinstr).2]
    · rw [hrpos]
      apply Layout.assembles_of_resolve hinstr
      intro name hname
      have hdefines := Layout.lookup_of_checkDefined hdefined hq hname
      obtain ⟨number, hlabel, hoffset⟩ := hfits.lookup hdefines
      refine ⟨number, fun k => ?_, ?_⟩
      · rw [← mem_labelsOf_zipIdx hlines]
        constructor
        · intro hk
          have hsame := List.inj_on_of_nodup_map hfits.names hk hlabel rfl
          exact congrArg Prod.snd hsame
        · rintro rfl
          exact hlabel
      · rw [hoffset, hplaces, hsize]
        rfl

/-- Labels behind, at and before the statements that name them; the first and the last one have
lines of their own. -/
def jumpsText : String :=
  "start:\nPUSH_INT 7 ; count\njmp_true end\nPATCH site\nsite: FETCH_GLOBAL 3\nself: JMP self\nend:"

theorem assemble_places_jumpsText :
    ∃ p source rows, assemble jumpsText = .ok p ∧
      (Text.lines jumpsText).mapM tokenize = .ok source ∧ p.size = 21 ∧
      p.decodeAll = .ok (rows.map fun r => (r.pos, r.instr)) ∧
      rows.map Row.line = [2, 3, 4, 5, 6] ∧
      ∀ r ∈ rows, ∃ args,
        Assembles (LabelAt source rows 21) (r.pos + r.instr.size) args r.instr := by
  have hp : assemble jumpsText = .ok ⟨#[5, 7, 0, 0, 0, 0, 0, 0, 0, 19, 9, 0, 10, 16, 0, 12, 3, 0,
      18, 253, 255]⟩ := by decide +kernel
  have hnumbers : ((Text.lines jumpsText).mapM tokenize).map (fun source =>
      ((source.zipIdx 1).filter fun x => carriesStatement x.1).map Prod.snd) =
        .ok [2, 3, 4, 5, 6] := by decide +kernel
  obtain ⟨source, rows, hsource, hdecode, hlines, hrows⟩ := assemble_places hp
  rw [hsource] at hnumbers
  have hline : rows.map Row.line = [2, 3, 4, 5, 6] := hlines.trans (Except.ok.inj hnumbers)
  refine ⟨_, source, rows, hp, hsource, rfl, hdecode, hline, fun r hr => ?_⟩
  obtain ⟨_, _, args, -, -, -, hargs⟩ := hrows r hr
  exact ⟨args, hargs⟩

end StackVM
