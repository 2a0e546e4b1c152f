import StackVM.Proofs.Asm.Placement.Rows
import StackVM.Proofs.Verify.Lookup

/-! # What the verifier says about labels

The assembler turns a label into the offset of the first instruction at or after its line, and the
verifier looks for an instruction at that offset in a listing that it decodes anew. Both see the
same offsets, so the verifier finds the instruction that the label stands for, or none when no
statement follows the label.
-/
namespace StackVM

/-- The instructions of rows with their offsets. -/
def listingOf (rows : List Row) : List (Nat × Instr) := rows.map fun r => (r.pos, r.instr)

/-- The offset of the first instruction at or after a line. -/
def offsetOf (rows : List Row) (size line : Nat) : Nat :=
  offsetAt (rows.map fun r => (r.line, r.pos)) size line

section Rows
variable {p : Program} {rows : List Row} {number : Nat}

theorem offsetOf_eq (rows : List Row) (size number : Nat) :
    offsetOf rows size number = ((rows.find? (number ≤ ·.line)).map Row.pos).getD size := by
  simp [offsetOf, offsetAt, List.find?_map, Function.comp_def]

/-- The verifier finds at the offset of a label the instruction that the label stands for. -/
theorem instrAt?_offsetOf (h : Listing p 0 (listingOf rows)) (number : Nat) :
    (Decoded.mk (listingOf rows) p.size).instrAt? (offsetOf rows p.size number) =
      (rows.find? (number ≤ ·.line)).map Row.instr := by
  rw [offsetOf_eq]
  cases hfind : rows.find? (number ≤ ·.line) with
  | none => exact h.instrAt?_size
  | some r =>
    rw [Option.map_some, Option.map_some, Option.getD_some, h.instrAt?_eq_some_iff]
    exact List.mem_map_of_mem (List.mem_of_find?_eq_some hfind)

theorem size_le_offsetOf_iff (h : Listing p 0 (listingOf rows)) :
    p.size ≤ offsetOf rows p.size number ↔ ∀ r ∈ rows, r.line < number := by
  rw [offsetOf_eq]
  cases hfind : rows.find? (number ≤ ·.line) with
  | none => simpa using List.find?_eq_none.mp hfind
  | some r =>
    have hr : r ∈ rows := List.mem_of_find?_eq_some hfind
    have hline : number ≤ r.line := by simpa using List.find?_some hfind
    have hend := h.end_le_of_mem (List.mem_map_of_mem hr)
    have hsize := r.instr.size_pos
    constructor
    · intro hle
      simp only [Option.map_some, Option.getD_some] at hle
      omega
    · intro hall
      exact absurd (hall r hr) (Nat.not_lt.mpr hline)

/-- What the verifier reports of an instruction whose operand is a label that the line with this
number defines. -/
structure LabelReports (p : Program) (rows : List Row) (r : Row) (number : Nat) : Prop where
  /-- A label never leads between two instructions. -/
  boundary : ∀ t, .targetNotOnBoundary r.pos t ∉ p.verify
  /-- It leads outside the program exactly when no statement stands at or after it. -/
  range : (∃ distance, .targetOutOfRange r.pos distance ∈ p.verify) ↔
    r.instr.opcode ≠ .patch ∧ ∀ r' ∈ rows, r'.line < number
  /-- A patch names no index exactly when the first instruction at or after the label is missing or
  accesses no global. -/
  link : (∃ address, .invalidPatchTarget r.pos address ∈ p.verify) ↔
    r.instr.opcode = .patch ∧
      ∀ r', rows.find? (number ≤ ·.line) = some r' → r'.instr.opcode.takesGlobal = false

section Row
variable {r : Row} (h : p.decodeAll = .ok (listingOf rows)) (hr : r ∈ rows)
include h hr

theorem mem_listingOf_iff {i : Instr} : (r.pos, i) ∈ listingOf rows ↔ i = r.instr := by
  have hlisting := Program.decodeAll_eq_ok_iff_listing.mp h
  have hmem : (r.pos, r.instr) ∈ listingOf rows := List.mem_map_of_mem hr
  constructor
  · intro hi
    exact hlisting.eq_of_mem hi hmem
  · rintro rfl
    exact hmem

theorem targetOutOfRange_mem_verify_iff {distance : Int16} :
    .targetOutOfRange r.pos distance ∈ p.verify ↔ r.instr.relative? = some distance ∧
      (Decoded.mk (listingOf rows) p.size).target? r.pos r.instr distance = none := by
  rw [Program.mem_verify_iff h]
  simp [Decoded.Finds, mem_listingOf_iff h hr]

theorem targetNotOnBoundary_mem_verify_iff {t : Nat} :
    .targetNotOnBoundary r.pos t ∈ p.verify ↔ ∃ distance, r.instr.relative? = some distance ∧
      (Decoded.mk (listingOf rows) p.size).target? r.pos r.instr distance = some t ∧
      (Decoded.mk (listingOf rows) p.size).instrAt? t = none := by
  rw [Program.mem_verify_iff h]
  simp [Decoded.Finds, mem_listingOf_iff h hr]

theorem invalidPatchTarget_mem_verify_iff {address : UInt16} :
    .invalidPatchTarget r.pos address ∈ p.verify ↔ r.instr = ⟨.patch, address⟩ ∧
      (Decoded.mk (listingOf rows) p.size).isGlobalOperand address.toNat = false := by
  rw [Program.mem_verify_iff h, eq_comm, ← mem_listingOf_iff h hr]
  rfl

theorem labelReports_of_relative (hop : r.instr.opcode ≠ .patch) {distance : Int16}
    (hd : r.instr.relative? = some distance)
    (htarget : relativeTarget? (r.pos + r.instr.size) distance =
      some (offsetOf rows p.size number)) : LabelReports p rows r number := by
  have hlisting := Program.decodeAll_eq_ok_iff_listing.mp h
  have hinside : (Decoded.mk (listingOf rows) p.size).target? r.pos r.instr distance =
      (some (offsetOf rows p.size number)).filter (· < p.size) := by
    rw [← htarget]
    rfl
  constructor
  · intro t hmem
    obtain ⟨d, hd', ht, hnone⟩ := (targetNotOnBoundary_mem_verify_iff h hr).mp hmem
    obtain rfl := Option.some.inj (hd.symm.trans hd')
    rw [hinside] at ht
    obtain ⟨heq, hlt⟩ := Option.filter_eq_some_iff.mp ht
    cases heq
    rw [instrAt?_offsetOf hlisting, Option.map_eq_none_iff, List.find?_eq_none] at hnone
    have hbeyond := (size_le_offsetOf_iff hlisting).mpr (by simpa using hnone)
    exact absurd (of_decide_eq_true hlt) (Nat.not_lt.mpr hbeyond)
  · rw [← size_le_offsetOf_iff hlisting]
    simp only [targetOutOfRange_mem_verify_iff h hr, hd, Option.some.injEq, exists_eq_left']
    simpa [hinside] using fun _ => hop
  · simp only [invalidPatchTarget_mem_verify_iff h hr]
    constructor
    · rintro ⟨a, hpatch, -⟩
      exact absurd (congrArg Instr.opcode hpatch) hop
    · rintro ⟨hpatch, -⟩
      exact absurd hpatch hop

theorem labelReports_of_patch {address : UInt16} (hi : r.instr = ⟨.patch, address⟩)
    (haddress : address.toNat = offsetOf rows p.size number + 1) :
    LabelReports p rows r number := by
  have hlisting := Program.decodeAll_eq_ok_iff_listing.mp h
  have hop : r.instr.opcode = .patch := by rw [hi]
  have hrelative : r.instr.relative? = none := by rw [hi]; rfl
  have hglobal : (Decoded.mk (listingOf rows) p.size).isGlobalOperand address.toNat = false ↔
      ∀ r', rows.find? (number ≤ ·.line) = some r' → r'.instr.opcode.takesGlobal = false := by
    rw [haddress, Decoded.isGlobalOperand, instrAt?_offsetOf hlisting]
    cases rows.find? (number ≤ ·.line) <;> simp
  constructor
  · intro t hmem
    obtain ⟨d, hd, -⟩ := (targetNotOnBoundary_mem_verify_iff h hr).mp hmem
    cases hrelative.symm.trans hd
  · simp [targetOutOfRange_mem_verify_iff h hr, hrelative, hop]
  · simp only [← hglobal, invalidPatchTarget_mem_verify_iff h hr]
    constructor
    · rintro ⟨a, hpatch, hfalse⟩
      cases hi.symm.trans hpatch
      exact ⟨hop, hfalse⟩
    · rintro ⟨-, hfalse⟩
      exact ⟨address, hi, hfalse⟩

end Row
end Rows

theorem Branch.relative?_instr (kind : Branch) (d : Int16) :
    (kind.instr d).relative? = some d := by
  cases kind <;> rfl

theorem Assembles.of_label {target : String → Nat → Prop} {next : Nat} {name : String}
    {args : List Token} {i : Instr} (h : Assembles target next (.ident name :: args) i) :
    ∃ offset, target name offset ∧
      ((i.opcode ≠ .patch ∧
          ∃ d, i.relative? = some d ∧ relativeTarget? next d = some offset) ∨
        ∃ address : UInt16, i = ⟨.patch, address⟩ ∧ address.toNat = offset + 1) := by
  generalize htokens : Token.ident name :: args = tokens at h
  cases h with
  | literal =>
    have hmem : Token.ident name ∈ i.opcode.shape.argumentTokens i.operand := by simp [← htokens]
    exact absurd hmem (Shape.ident_notMem_argumentTokens _ _ _)
  | @branch kind _ offset d hname hd =>
    cases htokens
    refine ⟨offset, hname, Or.inl ⟨?_, d, kind.relative?_instr d, hd⟩⟩
    rw [kind.opcode_instr]
    cases kind <;> exact Opcode.noConfusion
  | closure hname hd =>
    cases htokens
    exact ⟨_, hname, Or.inl ⟨Opcode.noConfusion, _, rfl, hd⟩⟩
  | patch hname ha =>
    cases htokens
    exact ⟨_, hname, Or.inr ⟨_, rfl, ha⟩⟩

namespace Layout.Fits
variable {l : Layout} {src : List (Line × Nat)}

theorem exists_listing (h : l.Fits src) {instrs : List Instr} {p : Program}
    (hresolve : l.statements.mapM l.resolve = .ok instrs) (hp : Program.ofInstrs instrs = .ok p) :
    ∃ rows, p.decodeAll = .ok (listingOf rows) ∧
      rows.map (fun r => (r.line, r.pos)) = l.places ∧ p.size = l.size ∧
      ∀ r ∈ rows, ∃ q ∈ l.statements, l.resolve q = .ok r.instr ∧ r.line = q.line ∧
        r.pos = q.pos := by
  obtain ⟨rows, hinstrs, hplaces, hsizes, hrows⟩ :=
    Layout.exists_rows (mapM_eq_ok_iff.mp hresolve)
  have hpos : rows.map Row.pos = l.statements.map Placed.pos := by
    simpa [Function.comp_def] using congrArg (List.map Prod.snd) hplaces
  refine ⟨rows, ?_, hplaces, ?_, hrows⟩
  · have hsnd : (listingOf rows).map Prod.snd = instrs := by simp [listingOf, ← hinstrs]
    rw [Program.decodeAll_eq_ok_iff, hsnd, offsetsFrom_congr hsizes]
    refine ⟨hp, ?_⟩
    rw [listingOf, List.map_map]
    exact hpos.trans h.offsets
  · rw [Program.size_of_ofInstrs hp, length_flatMap_bytes_congr hsizes, h.size]
    rfl

/-- A label that a statement names is defined by one line and stands where that line leads. -/
theorem labelAt {source : List (List Token)} {lines : List Line} {rows : List Row}
    (h : l.Fits (lines.zipIdx 1))
    (hlines : List.Forall₂ (fun ts line => parseLine ts = .ok line) source lines)
    (hplaces : rows.map (fun r => (r.line, r.pos)) = l.places) (hdefined : l.checkDefined = .ok ())
    {q : Placed} (hq : q ∈ l.statements) {name : String} (hname : q.stmt.target? = some name) :
    LabelAt source rows l.size name (l.position name) := by
  obtain ⟨number, hlabel, hoffset⟩ := h.lookup (Layout.lookup_of_checkDefined hdefined hq hname)
  refine ⟨number, fun k => ?_, by rw [hplaces, hoffset]⟩
  rw [← mem_labelsOf_zipIdx hlines]
  constructor
  · intro hk
    exact congrArg Prod.snd (List.inj_on_of_nodup_map h.names hk hlabel rfl)
  · rintro rfl
    exact hlabel

theorem arguments_of_tokens {source : List (List Token)} {lines : List Line}
    (h : l.Fits (lines.zipIdx 1))
    (hlines : List.Forall₂ (fun ts line => parseLine ts = .ok line) source lines) {q : Placed}
    (hq : q ∈ l.statements) {tokens args : List Token} {mnemonic : String}
    (htokens : (tokens, q.line) ∈ source.zipIdx 1)
    (hbody : (splitLabel tokens).2 = .ident mnemonic :: args) : q.stmt.arguments = args := by
  obtain ⟨x, hx, hstmt, hline⟩ := h.line_mem hq
  obtain ⟨ts, hmem, hparse⟩ := exists_tokens_of_mem hlines hx
  rw [hline, List.mk_mem_zipIdx_iff_le_and_getElem?_sub] at hmem
  rw [List.mk_mem_zipIdx_iff_le_and_getElem?_sub] at htokens
  obtain rfl := Option.some.inj (hmem.2.symm.trans htokens.2)
  obtain ⟨_, hstatement, -⟩ := (parseBody_eq_ok (parseLine_eq_ok hparse).2).2 _ hstmt
  exact (List.cons.inj (hstatement.symm.trans hbody)).2

end Layout.Fits

/-- The assembler and the verifier agree on labels. In a program that a text assembles to, no
instruction whose operand was written as a label leads between two instructions. The verifier
reports that it leads outside the program exactly when the label is defined after the last
statement, and that a patch names no index exactly when the first instruction at or after the label
is missing or accesses no global. -/
theorem verify_labels {text : String} {p : Program} (h : assemble text = .ok p) :
    ∃ (source : List (List Token)) (rows : List Row),
      (Text.lines text).mapM tokenize = .ok source ∧
      p.decodeAll = .ok (listingOf rows) ∧
      rows.map Row.line =
        ((source.zipIdx 1).filter fun x => carriesStatement x.1).map Prod.snd ∧
      ∀ r ∈ rows, ∀ tokens mnemonic name args, (tokens, r.line) ∈ source.zipIdx 1 →
        (splitLabel tokens).2 = .ident mnemonic :: .ident name :: args →
        ∃ number,
          (∀ k, (∃ tokens, (tokens, k) ∈ source.zipIdx 1 ∧ (splitLabel tokens).1 = some name) ↔
            k = number) ∧
          LabelReports p rows r number := by
  obtain ⟨l, instrs, hlayout, hdefined, hresolve, hprogram⟩ := exists_layout_of_assemble h
  obtain ⟨source, lines, htokens, hlines, hfits⟩ :=
    Layout.Fits.empty.addSources (by simp) hlayout
  rw [List.nil_append] at hfits
  obtain ⟨rows, hdecode, hplaces, hsize, hrows⟩ := hfits.exists_listing hresolve hprogram
  refine ⟨source, rows, mapM_eq_ok_iff.mpr htokens, hdecode, ?_, ?_⟩
  · have hline : rows.map Row.line = l.statements.map Placed.line := by
      simpa [Layout.places, Function.comp_def] using congrArg (List.map Prod.fst) hplaces
    rw [hline, ← stmtsOf_zipIdx hlines, ← hfits.stmts]
    simp
  · intro r hr tokens mnemonic name args htokens hbody
    obtain ⟨q, hq, hinstr, hrline, hrpos⟩ := hrows r hr
    have hargs : q.stmt.arguments = .ident name :: args :=
      hfits.arguments_of_tokens hlines hq (hrline ▸ htokens) hbody
    have hassembles : Assembles (LabelAt source rows l.size) (r.pos + r.instr.size)
        (.ident name :: args) r.instr := by
      rw [← hargs, hrpos]
      exact Layout.assembles_of_resolve hinstr fun name hname =>
        hfits.labelAt hlines hplaces hdefined hq hname
    obtain ⟨offset, ⟨number, hnumber, hoffset⟩, hcase⟩ := hassembles.of_label
    rw [← hsize] at hoffset
    subst hoffset
    refine ⟨number, hnumber, ?_⟩
    rcases hcase with ⟨hop, d, hd, htarget⟩ | ⟨address, hi, haddress⟩
    · exact labelReports_of_relative hdecode hr hop hd htarget
    · exact labelReports_of_patch hdecode hr hi haddress

/-- A jump to the end and two patches, of which only the second one writes an index. -/
def linksText : String :=
  "start: JMP end\nPATCH start\nPATCH site\nsite:\nFETCH_GLOBAL 0\nHALT\nend:"

theorem verify_labels_linksText :
    ∃ p source rows, assemble linksText = .ok p ∧
      (Text.lines linksText).mapM tokenize = .ok source ∧ p.decodeAll = .ok (listingOf rows) ∧
      p.verify = [.targetOutOfRange 0 10, .invalidPatchTarget 3 1] ∧
      ∀ r ∈ rows, ∀ tokens mnemonic name args, (tokens, r.line) ∈ source.zipIdx 1 →
        (splitLabel tokens).2 = .ident mnemonic :: .ident name :: args →
        ∃ number, LabelReports p rows r number := by
  have hp : assemble linksText =
      .ok ⟨#[18, 10, 0, 10, 1, 0, 10, 10, 0, 12, 0, 0, 0]⟩ := by decide +kernel
  have hdecode : Program.decodeAll ⟨#[18, 10, 0, 10, 1, 0, 10, 10, 0, 12, 0, 0, 0]⟩ =
      .ok [(0, ⟨.jump, (10 : Int16)⟩), (3, ⟨.patch, (1 : UInt16)⟩), (6, ⟨.patch, (10 : UInt16)⟩),
        (9, ⟨.fetchGlobal, (0 : UInt16)⟩), (12, ⟨.halt, ()⟩)] := by
    refine Program.decodeAll_eq_ok_iff.mpr ⟨?_, ?_⟩ <;> decide
  obtain ⟨source, rows, hsource, hlisting, -, hreports⟩ := verify_labels hp
  refine ⟨_, source, rows, hp, hsource, hlisting, ?_, ?_⟩
  · unfold Program.verify
    rw [hdecode]
    decide
  · intro r hr tokens mnemonic name args htokens hbody
    obtain ⟨number, -, h⟩ := hreports r hr tokens mnemonic name args htokens hbody
    exact ⟨number, h⟩

end StackVM
