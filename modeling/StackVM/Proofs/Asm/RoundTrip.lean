import StackVM.Asm.Layout
import StackVM.Asm.Printer
import StackVM.Proofs.Asm.Spelling.Lines
import StackVM.Proofs.Code.Listing

/-! # Assembling canonical text

The canonical text of a program assembles to the program it was made from. Each instruction prints
as spellings on one line, the line scans to the tokens of the instruction, these parse to a plain
statement, and the layout of plain statements is the sequence of their instructions.
-/
namespace StackVM

def intToken (n : Int) : Token := .number (Int64.ofInt n)

/-- The tokens that the arguments of an operand scan to. -/
def Shape.argumentTokens : (s : Shape) → s.Operand → List Token
  | .bare, _ => []
  | .int, n => [.number n]
  | .text, t => [.text t]
  | .index, n => [intToken n.toNat]
  | .slot, n => [intToken n.toNat]
  | .offset, d => [intToken d.toInt]
  | .entry, e => [intToken e.offset.toInt, intToken e.params.toNat, intToken e.slots.toNat]
  | .upvar, u => [intToken u.depth.toNat, intToken u.slot.toNat]

/-- The integers of the operands of at most sixteen bits. -/
def Narrow (n : Int) : Prop := -32768 ≤ n ∧ n ≤ 65535

theorem Narrow.int64 {n : Int} (h : Narrow n) :
    Int64.minValue.toInt ≤ n ∧ n ≤ Int64.maxValue.toInt := by
  obtain ⟨hlow, hhigh⟩ := h
  constructor
  · change (-9223372036854775808 : Int) ≤ n
    omega
  · change n ≤ 9223372036854775807
    omega

theorem Narrow.spelled {n : Int} (h : Narrow n) : Spelled (toString n).toList (intToken n) :=
  .int h.int64

theorem Narrow.within {n low high : Int} (h : Narrow n) (hn : low ≤ n ∧ n ≤ high) :
    (intToken n).within low high = .ok n := by
  have hvalue : (Int64.ofInt n).toInt = n := Int64.toInt_ofInt_of_le h.int64.1 (by
    have := h.2
    omega)
  unfold intToken Token.within
  dsimp only
  rw [hvalue, if_pos hn]

theorem narrow_uint16 (n : UInt16) : Narrow n.toNat := by
  have hlt := n.toNat_lt
  constructor <;> omega

theorem narrow_uint8 (n : UInt8) : Narrow n.toNat := by
  have hlt := n.toNat_lt
  constructor <;> omega

theorem narrow_int16 (d : Int16) : Narrow d.toInt := by
  have hlow := d.le_toInt
  have hhigh := d.toInt_lt
  constructor <;> omega

theorem Shape.spelled_arguments (s : Shape) (x : s.Operand) :
    List.Forall₂ Spelled ((s.arguments x).map String.toList) (s.argumentTokens x) := by
  cases s with
  | bare => exact .nil
  | int =>
    have hspelled := Spelled.int ⟨x.minValue_le_toInt, x.toInt_le⟩
    rw [Int64.ofInt_toInt] at hspelled
    exact .cons hspelled .nil
  | text =>
    have htext : ("\"" ++ Text.escape x ++ "\"").toList =
        '"' :: (Text.escape x).toList ++ ['"'] := by
      simp
    refine .cons ?_ .nil
    rw [htext]
    exact .text x
  | index => exact .cons (narrow_uint16 x).spelled .nil
  | slot => exact .cons (narrow_uint8 x).spelled .nil
  | offset => exact .cons (narrow_int16 x).spelled .nil
  | entry =>
    exact .cons (narrow_int16 x.offset).spelled (.cons (narrow_uint8 x.params).spelled
      (.cons (narrow_uint8 x.slots).spelled .nil))
  | upvar =>
    exact .cons (narrow_uint8 x.depth).spelled (.cons (narrow_uint8 x.slot).spelled .nil)

theorem uint16_intToken (n : UInt16) : (intToken n.toNat).uint16 = .ok n := by
  have hlt := n.toNat_lt
  unfold Token.uint16
  rw [(narrow_uint16 n).within ⟨by omega, by omega⟩]
  change Except.ok (UInt16.ofNat n.toNat) = .ok n
  rw [UInt16.ofNat_toNat]

theorem uint8_intToken (n : UInt8) : (intToken n.toNat).uint8 = .ok n := by
  have hlt := n.toNat_lt
  unfold Token.uint8
  rw [(narrow_uint8 n).within ⟨by omega, by omega⟩]
  change Except.ok (UInt8.ofNat n.toNat) = .ok n
  rw [UInt8.ofNat_toNat]

theorem int16_intToken (d : Int16) : (intToken d.toInt).int16 = .ok d := by
  have hlow := d.le_toInt
  have hhigh := d.toInt_lt
  unfold Token.int16
  rw [(narrow_int16 d).within ⟨by omega, by omega⟩]
  change Except.ok (Int16.ofInt d.toInt) = .ok d
  rw [Int16.ofInt_toInt]

theorem Shape.parseLiteral_argumentTokens (op : Opcode) (s : Shape) (x : s.Operand) (h : s.Fits x) :
    s.parseLiteral op (s.argumentTokens x) = .ok x := by
  cases s with
  | bare => rfl
  | int => rfl
  | text => exact if_pos h
  | index => exact uint16_intToken x
  | slot => exact uint8_intToken x
  | offset => exact int16_intToken x
  | entry =>
    simp only [argumentTokens, parseLiteral, uint8_intToken, int16_intToken]
    rfl
  | upvar =>
    simp only [argumentTokens, parseLiteral, uint8_intToken]
    rfl

theorem Shape.length_argumentTokens (s : Shape) (x : s.Operand) :
    (s.argumentTokens x).length = s.arity := by
  cases s <;> rfl

theorem Shape.ident_notMem_argumentTokens (s : Shape) (x : s.Operand) (name : String) :
    .ident name ∉ s.argumentTokens x := by
  cases s <;> simp [argumentTokens, intToken]

theorem checkArity_of_length {op : Opcode} {args : List Token} (h : args.length = op.shape.arity) :
    checkArity op args = .ok () := by
  unfold checkArity
  rw [if_neg (by omega), List.drop_of_length_le (by omega)]

theorem parseStmt_of_literals {op : Opcode} {args : List Token} {x : op.shape.Operand}
    (harity : args.length = op.shape.arity) (hident : ∀ name, .ident name ∉ args)
    (hx : op.shape.parseLiteral op args = .ok x) : parseStmt op args = .ok (.plain ⟨op, x⟩) := by
  unfold parseStmt
  rw [checkArity_of_length harity]
  dsimp only [bind, Except.bind]
  split
  · exact absurd List.mem_cons_self (hident _)
  · exact absurd List.mem_cons_self (hident _)
  · exact absurd List.mem_cons_self (hident _)
  · rw [hx]
    rfl

theorem Opcode.isIdent_mnemonic (op : Opcode) : Token.isIdent op.mnemonic.toList = true := by
  cases op <;> decide

theorem Opcode.toUpper_mnemonic (op : Opcode) : op.mnemonic.toUpper = op.mnemonic := by
  rw [← String.toList_inj, String.toUpper, String.toList_map]
  cases op <;> decide

theorem Opcode.ofMnemonic?_mnemonic (op : Opcode) : ofMnemonic? op.mnemonic = some op := by
  cases op <;> decide

/-- The tokens of an instruction. -/
def Instr.tokens (i : Instr) : List Token :=
  .ident i.opcode.mnemonic :: i.opcode.shape.argumentTokens i.operand

theorem Instr.parseLine_tokens {i : Instr} (h : i.Encodable) :
    parseLine i.tokens = .ok ⟨none, some (.plain i)⟩ := by
  have hstmt := parseStmt_of_literals (i.opcode.shape.length_argumentTokens i.operand)
    (i.opcode.shape.ident_notMem_argumentTokens i.operand)
    (i.opcode.shape.parseLiteral_argumentTokens i.opcode i.operand h)
  have hbody : parseBody i.tokens = .ok (some (.plain i)) := by
    unfold parseBody Instr.tokens
    dsimp only
    rw [i.opcode.toUpper_mnemonic, i.opcode.ofMnemonic?_mnemonic]
    dsimp only
    rw [hstmt]
    rfl
  change (do return Line.mk none (← parseBody i.tokens)) = _
  rw [hbody]
  rfl

/-- The spellings on the line of an instruction. -/
def Instr.words (i : Instr) : List (List Char) :=
  i.opcode.mnemonic.toList :: (i.opcode.shape.arguments i.operand).map String.toList

theorem Instr.toList_text (i : Instr) : i.text.toList = [' '].intercalate i.words := by
  unfold Instr.text
  rw [String.toList_intercalate]
  rfl

theorem Instr.spelled_words (i : Instr) : List.Forall₂ Spelled i.words i.tokens :=
  .cons (.ident i.opcode.isIdent_mnemonic) (i.opcode.shape.spelled_arguments i.operand)

theorem Instr.tokenize_text (i : Instr) : tokenize i.text.toList = .ok i.tokens := by
  rw [i.toList_text]
  exact tokenize_intercalate i.spelled_words (List.cons_ne_nil _ _)

theorem Instr.ne_lineEnd_of_mem_text {i : Instr} {c : Char} (hc : c ∈ i.text.toList) :
    c ≠ '\n' ∧ c ≠ '\r' := by
  rw [i.toList_text] at hc
  exact ne_lineEnd_of_mem_intercalate i.spelled_words hc

namespace Text

theorem linesFrom_line {line : List Char} (h : '\n' ∉ line) (done : List (List Char))
    (rev rest : List Char) :
    linesFrom done rev (line ++ '\n' :: rest) =
      linesFrom (closeLine (line.reverse ++ rev) :: done) [] rest := by
  induction line generalizing rev with
  | nil => rfl
  | cons c line ih =>
    have hc : c ≠ '\n' := by
      rintro rfl
      exact h List.mem_cons_self
    rw [List.cons_append, linesFrom, if_neg hc, ih fun hm => h (List.mem_cons_of_mem c hm),
      List.reverse_cons, List.append_assoc]
    rfl

theorem closeLine_reverse {line : List Char} (h : '\r' ∉ line) : closeLine line.reverse = line := by
  unfold closeLine
  split
  next rev hrev =>
    refine absurd ?_ h
    rw [← List.mem_reverse, hrev]
    exact List.mem_cons_self
  next => exact List.reverse_reverse line

theorem linesFrom_flatMap {ls : List (List Char)} (h : ∀ line ∈ ls, '\n' ∉ line ∧ '\r' ∉ line)
    (done : List (List Char)) :
    linesFrom done [] (ls.flatMap (· ++ ['\n'])) = done.reverse ++ ls := by
  induction ls generalizing done with
  | nil => simp [linesFrom]
  | cons line ls ih =>
    obtain ⟨hfeed, hreturn⟩ := h line List.mem_cons_self
    have hclose : closeLine (line.reverse ++ []) = line := by
      rw [List.append_nil]
      exact closeLine_reverse hreturn
    rw [List.flatMap_cons, List.append_assoc]
    change linesFrom done [] (line ++ '\n' :: ls.flatMap (· ++ ['\n'])) = _
    rw [linesFrom_line hfeed, hclose, ih fun l hl => h l (List.mem_cons_of_mem line hl),
      List.reverse_cons, List.append_assoc]
    rfl

end Text

theorem toList_listing (instrs : List Instr) :
    (listing instrs).toList = (instrs.map (·.text.toList)).flatMap (· ++ ['\n']) := by
  have hfold : ∀ text : String,
      (instrs.foldl (fun text i => text ++ i.text ++ "\n") text).toList =
        text.toList ++ (instrs.map (·.text.toList)).flatMap (· ++ ['\n']) := by
    induction instrs with
    | nil => simp
    | cons i instrs ih =>
      intro text
      rw [List.foldl_cons, ih]
      simp
  exact hfold ""

theorem lines_listing (instrs : List Instr) :
    Text.lines (listing instrs) = instrs.map (·.text.toList) := by
  unfold Text.lines
  rw [toList_listing, Text.linesFrom_flatMap]
  · rfl
  · intro line hline
    obtain ⟨i, -, rfl⟩ := List.mem_map.mp hline
    exact ⟨fun hc => (Instr.ne_lineEnd_of_mem_text hc).1 rfl,
      fun hc => (Instr.ne_lineEnd_of_mem_text hc).2 rfl⟩

namespace Layout

theorem addSource_text (l : Layout) (number : Nat) {i : Instr} (h : i.Encodable) :
    l.addSource number i.text.toList = .ok (l.place number (.plain i)) := by
  unfold addSource
  rw [i.tokenize_text]
  change (do let line ← parseLine i.tokens; l.addLine number line) = _
  rw [Instr.parseLine_tokens h]
  rfl

theorem addSources_texts {instrs : List Instr} (h : ∀ i ∈ instrs, i.Encodable) (l : Layout)
    (number : Nat) :
    ∃ l', l.addSources number (instrs.map (·.text.toList)) = .ok l' ∧
      l'.statements.map (·.stmt) = l.statements.map (·.stmt) ++ instrs.map Stmt.plain := by
  induction instrs generalizing l number with
  | nil => exact ⟨l, rfl, (List.append_nil _).symm⟩
  | cons i instrs ih =>
    obtain ⟨hi, hrest⟩ := List.forall_mem_cons.mp h
    obtain ⟨l', hl', hstmts⟩ := ih hrest (l.place number (.plain i)) (number + 1)
    refine ⟨l', ?_, ?_⟩
    · rw [List.map_cons, addSources, addSource_text l number hi]
      exact hl'
    · rw [hstmts]
      simp [statements, place]

theorem resolve_of_plain (l : Layout) {p : Placed} {i : Instr} (h : p.stmt = .plain i) :
    l.resolve p = .ok i := by
  unfold resolve
  rw [h]

theorem mapM_resolve_of_plain (l : Layout) {placed : List Placed} {instrs : List Instr}
    (h : placed.map (·.stmt) = instrs.map Stmt.plain) : placed.mapM l.resolve = .ok instrs := by
  induction placed generalizing instrs with
  | nil =>
    cases instrs with
    | nil => rfl
    | cons i instrs => cases h
  | cons p placed ih =>
    cases instrs with
    | nil => cases h
    | cons i instrs =>
      obtain ⟨hp, hplaced⟩ := List.cons.inj h
      rw [List.mapM_cons, l.resolve_of_plain hp, ih hplaced]
      rfl

theorem checkDefined_of_plain {l : Layout} {instrs : List Instr}
    (h : l.statements.map (·.stmt) = instrs.map Stmt.plain) : l.checkDefined = .ok () := by
  have hnone : ∀ p ∈ l.statements, p.stmt.target? = none := by
    intro p hp
    have hmem : p.stmt ∈ instrs.map Stmt.plain := by
      rw [← h]
      exact List.mem_map_of_mem hp
    obtain ⟨i, -, hi⟩ := List.mem_map.mp hmem
    rw [← hi]
    rfl
  unfold checkDefined
  dsimp only
  rw [List.findSome?_eq_none_iff.mpr]
  intro p hp
  rw [hnone p hp]

end Layout

/-- The canonical text of instructions assembles to their encodings. -/
theorem assemble_listing {instrs : List Instr} {p : Program} (h : Program.ofInstrs instrs = .ok p) :
    assemble (listing instrs) = .ok p := by
  obtain ⟨hencodable, -⟩ := Program.ofInstrs_eq_ok_iff.mp h
  obtain ⟨l, hl, hstmts⟩ := Layout.empty.addSources_texts hencodable 1
  have hprogram : l.program = .ok p := by
    unfold Layout.program
    rw [l.mapM_resolve_of_plain hstmts]
    exact h
  unfold assemble
  rw [lines_listing, hl]
  dsimp only [bind, Except.bind]
  rw [Layout.checkDefined_of_plain hstmts, hprogram]

theorem exists_layout_of_assemble {text : String} {p : Program} (h : assemble text = .ok p) :
    ∃ l instrs, Layout.empty.addSources 1 (Text.lines text) = .ok l ∧ l.checkDefined = .ok () ∧
      l.statements.mapM l.resolve = .ok instrs ∧ Program.ofInstrs instrs = .ok p := by
  obtain ⟨l, hlayout, hrest⟩ := bind_eq_ok_iff.mp h
  obtain ⟨⟨⟩, hdefined, hprogram⟩ := bind_eq_ok_iff.mp hrest
  cases hp : l.program with
  | error e => simp [hp] at hprogram
  | ok q =>
    simp only [hp, Except.ok.injEq] at hprogram
    subst hprogram
    obtain ⟨instrs, hinstrs, hq⟩ := bind_eq_ok_iff.mp hp
    exact ⟨l, instrs, hlayout, hdefined, hinstrs, hq⟩

theorem exists_ofInstrs_of_assemble {text : String} {p : Program} (h : assemble text = .ok p) :
    ∃ instrs, Program.ofInstrs instrs = .ok p := by
  obtain ⟨_, instrs, -, -, -, hinstrs⟩ := exists_layout_of_assemble h
  exact ⟨instrs, hinstrs⟩

theorem Program.disassemble_of_decodeAll {p : Program} {l : List (Nat × Instr)}
    (h : p.decodeAll = .ok l) : p.disassemble = .ok (listing (l.map (·.2))) := by
  unfold disassemble
  rw [h]
  rfl

/-- A program that decodes disassembles to a text that assembles to it, and every text that
assembles gives such a program. -/
theorem text_roundtrip :
    (∀ (p : Program) (l : List (Nat × Instr)), p.decodeAll = .ok l →
      ∃ text, p.disassemble = .ok text ∧ assemble text = .ok p) ∧
    (∀ (text : String) (p : Program), assemble text = .ok p →
      (∃ l, p.decodeAll = .ok l) ∧
        ∃ canonical, p.disassemble = .ok canonical ∧ assemble canonical = .ok p) := by
  have hforth : ∀ (p : Program) (l : List (Nat × Instr)), p.decodeAll = .ok l →
      ∃ text, p.disassemble = .ok text ∧ assemble text = .ok p := by
    intro p l hl
    obtain ⟨hinstrs, -⟩ := Program.decodeAll_eq_ok_iff.mp hl
    exact ⟨_, Program.disassemble_of_decodeAll hl, assemble_listing hinstrs⟩
  refine ⟨hforth, ?_⟩
  intro text p hp
  obtain ⟨instrs, hinstrs⟩ := exists_ofInstrs_of_assemble hp
  obtain ⟨l, hl⟩ := Program.exists_decodeAll_of_ofInstrs hinstrs
  exact ⟨⟨l, hl⟩, hforth p l hl⟩

end StackVM
