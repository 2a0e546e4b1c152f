import StackVM.Proofs.Asm.RoundTrip

/-! # What a parsed line was written as

A reader that succeeds determines what it read: a literal operand was written with exactly the
arguments of its value, and the statement of a line stands there with its mnemonic and its
arguments, after the label if the line defines one.
-/
namespace StackVM

namespace Token
variable {t : Token} {low high : Int}

theorem within_eq_ok {n : Int} (h : t.within low high = .ok n) :
    t = intToken n ∧ low ≤ n ∧ n ≤ high := by
  cases t with
  | number v =>
    by_cases hrange : low ≤ v.toInt ∧ v.toInt ≤ high
    · simp only [within, hrange, and_self, if_true, Except.ok.injEq] at h
      subst h
      simp [intToken, hrange]
    · simp [within, hrange] at h
  | _ => simp [within] at h

theorem uint8_eq_ok {x : UInt8} (h : t.uint8 = .ok x) : t = intToken x.toNat := by
  obtain ⟨n, hn, hx⟩ := bind_eq_ok_iff.mp h
  obtain ⟨rfl, hlow, hhigh⟩ := within_eq_ok hn
  cases hx
  have hsize : n.toNat < 256 := by omega
  simp [Nat.mod_eq_of_lt hsize, Int.toNat_of_nonneg hlow]

theorem uint16_eq_ok {x : UInt16} (h : t.uint16 = .ok x) : t = intToken x.toNat := by
  obtain ⟨n, hn, hx⟩ := bind_eq_ok_iff.mp h
  obtain ⟨rfl, hlow, hhigh⟩ := within_eq_ok hn
  cases hx
  have hsize : n.toNat < 65536 := by omega
  simp [Nat.mod_eq_of_lt hsize, Int.toNat_of_nonneg hlow]

theorem int16_eq_ok {x : Int16} (h : t.int16 = .ok x) : t = intToken x.toInt := by
  obtain ⟨n, hn, hx⟩ := bind_eq_ok_iff.mp h
  obtain ⟨rfl, hlow, hhigh⟩ := within_eq_ok hn
  cases hx
  rw [Int16.toInt_ofInt_of_le hlow (by omega)]

theorem int64_eq_ok {x : Int64} (h : t.int64 = .ok x) : t = .number x := by
  cases t with
  | number v =>
    cases h
    rfl
  | _ => cases h

theorem literal_eq_ok {x : String} (h : t.literal = .ok x) : t = .text x := by
  cases t with
  | text v =>
    by_cases hsize : v.utf8ByteSize ≤ maxTextSize
    · simpa [literal, hsize] using h
    · simp [literal, hsize] at h
  | _ => simp [literal] at h

end Token

theorem length_of_checkArity {op : Opcode} {args : List Token} (h : checkArity op args = .ok ()) :
    args.length = op.shape.arity := by
  unfold checkArity at h
  by_cases hfew : args.length < op.shape.arity
  · simp [hfew] at h
  · simp only [hfew, if_false] at h
    cases hextra : args.drop op.shape.arity with
    | nil =>
      have hle := List.drop_eq_nil_iff.mp hextra
      omega
    | cons extra rest => simp [hextra] at h

theorem Shape.eq_argumentTokens_of_parseLiteral {op : Opcode} {s : Shape} {args : List Token}
    {x : s.Operand} (hlength : args.length = s.arity) (h : s.parseLiteral op args = .ok x) :
    args = s.argumentTokens x := by
  cases s with
  | bare => exact List.length_eq_zero_iff.mp hlength
  | int =>
    obtain ⟨t, rfl⟩ := List.length_eq_one_iff.mp hlength
    rw [Token.int64_eq_ok h]
    rfl
  | text =>
    obtain ⟨t, rfl⟩ := List.length_eq_one_iff.mp hlength
    rw [Token.literal_eq_ok h]
    rfl
  | index =>
    obtain ⟨t, rfl⟩ := List.length_eq_one_iff.mp hlength
    rw [Token.uint16_eq_ok h]
    rfl
  | slot =>
    obtain ⟨t, rfl⟩ := List.length_eq_one_iff.mp hlength
    rw [Token.uint8_eq_ok h]
    rfl
  | offset =>
    obtain ⟨t, rfl⟩ := List.length_eq_one_iff.mp hlength
    rw [Token.int16_eq_ok h]
    rfl
  | entry =>
    obtain ⟨e, p, n, rfl⟩ := List.length_eq_three.mp hlength
    obtain ⟨params, hparams, h⟩ := bind_eq_ok_iff.mp h
    obtain ⟨slots, hslots, h⟩ := bind_eq_ok_iff.mp h
    obtain ⟨offset, hoffset, h⟩ := bind_eq_ok_iff.mp h
    cases h
    rw [Token.uint8_eq_ok hparams, Token.uint8_eq_ok hslots, Token.int16_eq_ok hoffset]
    rfl
  | upvar =>
    obtain ⟨d, n, rfl⟩ := List.length_eq_two.mp hlength
    obtain ⟨depth, hdepth, h⟩ := bind_eq_ok_iff.mp h
    obtain ⟨slot, hslot, h⟩ := bind_eq_ok_iff.mp h
    cases h
    rw [Token.uint8_eq_ok hdepth, Token.uint8_eq_ok hslot]
    rfl

/-- The arguments that a statement is written with. -/
def Stmt.arguments : Stmt → List Token
  | .plain i => i.opcode.shape.argumentTokens i.operand
  | .branch _ name => [.ident name]
  | .closure name params slots => [.ident name, intToken params.toNat, intToken slots.toNat]
  | .patch name => [.ident name]

theorem Opcode.opcode_of_toBranch {op : Opcode} {kind : Branch} (h : op.toBranch = .ok kind) :
    kind.opcode = op := by
  cases op with
  | jump | jumpTrue | jumpFalse | tryStart =>
    cases h
    rfl
  | _ => cases h

theorem Branch.opcode_instr (kind : Branch) (d : Int16) : (kind.instr d).opcode = kind.opcode := by
  cases kind <;> rfl

theorem parseStmt_eq_ok {op : Opcode} {args : List Token} {stmt : Stmt}
    (h : parseStmt op args = .ok stmt) : stmt.skeleton.opcode = op ∧ args = stmt.arguments := by
  obtain ⟨⟨⟩, harity, hstmt⟩ := bind_eq_ok_iff.mp h
  split at hstmt
  next kind name hkind =>
    cases hstmt
    exact ⟨(kind.opcode_instr 0).trans (Opcode.opcode_of_toBranch hkind), rfl⟩
  next name p n _ =>
    obtain ⟨params, hparams, hstmt⟩ := bind_eq_ok_iff.mp hstmt
    obtain ⟨slots, hslots, hstmt⟩ := bind_eq_ok_iff.mp hstmt
    cases hstmt
    rw [Token.uint8_eq_ok hparams, Token.uint8_eq_ok hslots]
    exact ⟨rfl, rfl⟩
  next =>
    cases hstmt
    exact ⟨rfl, rfl⟩
  next =>
    obtain ⟨x, hx, hstmt⟩ := bind_eq_ok_iff.mp hstmt
    cases hstmt
    exact ⟨rfl, Shape.eq_argumentTokens_of_parseLiteral (length_of_checkArity harity) hx⟩

/-- The label that a line defines, and what follows it. -/
def splitLabel : List Token → Option String × List Token
  | .labelDef name :: rest => (some name, rest)
  | tokens => (none, tokens)

/-- Something other than a label stands on the line. -/
def carriesStatement (tokens : List Token) : Bool := !(splitLabel tokens).2.isEmpty

theorem parseBody_eq_ok {tokens : List Token} {stmt? : Option Stmt}
    (h : parseBody tokens = .ok stmt?) :
    stmt?.isSome = !tokens.isEmpty ∧ ∀ stmt, stmt? = some stmt →
      ∃ mnemonic, tokens = .ident mnemonic :: stmt.arguments ∧
        Opcode.ofMnemonic? mnemonic.toUpper = some stmt.skeleton.opcode := by
  cases tokens with
  | nil =>
    cases h
    simp
  | cons token args =>
    cases token with
    | ident mnemonic =>
      unfold parseBody at h
      dsimp only at h
      cases hop : Opcode.ofMnemonic? mnemonic.toUpper with
      | none => simp [hop] at h
      | some op =>
        simp only [hop] at h
        obtain ⟨stmt, hstmt, hsome⟩ := bind_eq_ok_iff.mp h
        cases hsome
        obtain ⟨rfl, rfl⟩ := parseStmt_eq_ok hstmt
        simp [hop]
    | _ => cases h

theorem parseLine_eq_ok {tokens : List Token} {line : Line} (h : parseLine tokens = .ok line) :
    line.label = (splitLabel tokens).1 ∧ parseBody (splitLabel tokens).2 = .ok line.stmt := by
  cases tokens with
  | nil =>
    cases h
    exact ⟨rfl, rfl⟩
  | cons token rest =>
    cases token with
    | labelDef name =>
      obtain ⟨stmt?, hbody, hline⟩ := bind_eq_ok_iff.mp h
      cases hline
      exact ⟨rfl, hbody⟩
    | _ =>
      obtain ⟨stmt?, hbody, hline⟩ := bind_eq_ok_iff.mp h
      cases hline
      exact ⟨rfl, hbody⟩

end StackVM
