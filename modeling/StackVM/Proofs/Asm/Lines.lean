import Mathlib.Algebra.GroupWithZero.Nat
import StackVM.Proofs.Asm.Reading
import StackVM.Proofs.Code.Sequence

/-! # Texts line by line

A line fails if it cannot be scanned, cannot be parsed, or defines a label that an earlier line
defines. Laying out a text stops at the first line that fails. If none does, the layout has a
statement for every line that carries one, at the sum of the sizes before it, and a label stands
for the offset of its line.
-/
namespace StackVM

/-- Scan and parse one source line. -/
def readLine (source : List Char) : Except LineFault Line := do
  parseLine (← tokenize source)

/-- What is wrong with a source line after these. -/
inductive SourceFails (earlier : List (List Char)) (source : List Char) : LineFault → Prop
  | scan {e : LineFault} : tokenize source = .error e → SourceFails earlier source e
  | parse {tokens : List Token} {e : LineFault} : tokenize source = .ok tokens →
      parseLine tokens = .error e → SourceFails earlier source e
  | redefines {tokens : List Token} {line : Line} {name : String} :
      tokenize source = .ok tokens → parseLine tokens = .ok line → line.label = some name →
      (∃ s ∈ earlier, ∃ other, readLine s = .ok other ∧ other.label = some name) →
      SourceFails earlier source (.duplicateLabel name)

/-- The line with this index, counted from zero, fails. -/
def FailsAt (sources : List (List Char)) (i : Nat) (e : LineFault) : Prop :=
  ∃ source, sources[i]? = some source ∧ SourceFails (sources.take i) source e

/-- The first index that has something to report. -/
def FirstAt {β : Type} (reports : Nat → β → Prop) (i : Nat) (b : β) : Prop :=
  reports i b ∧ ∀ j c, reports j c → i ≤ j

/-- Bytes of the statement on a line. -/
def Line.size (line : Line) : Nat := (line.stmt.map Stmt.size).getD 0

/-- The offset at which the code of a line starts. -/
def lineOffset (lines : List Line) (i : Nat) : Nat := ((lines.take i).map Line.size).sum

/-- A line defines the label, and its code starts at this offset. -/
def StandsFor (lines : List Line) (name : String) (pos : Nat) : Prop :=
  ∃ i line, lines[i]? = some line ∧ line.label = some name ∧ pos = lineOffset lines i

/-- The line with this index, counted from zero, carries this statement. -/
def StatementAt (lines : List Line) (i : Nat) (stmt : Stmt) : Prop :=
  ∃ line, lines[i]? = some line ∧ line.stmt = some stmt

section Lines
variable {lines : List Line} {line : Line} {i pos : Nat}

theorem lineOffset_append (h : i ≤ lines.length) :
    lineOffset (lines ++ [line]) i = lineOffset lines i := by
  rw [lineOffset, List.take_append_of_le_length h, lineOffset]

theorem lineOffset_all :
    lineOffset (lines ++ [line]) (lines ++ [line]).length =
      lineOffset lines lines.length + line.size := by
  rw [lineOffset, lineOffset, List.take_length, List.take_length]
  simp

theorem StatementAt.lt {stmt : Stmt} (h : StatementAt lines i stmt) : i < lines.length := by
  obtain ⟨line, hi, -⟩ := h
  exact (List.getElem?_eq_some_iff.mp hi).1

theorem statementAt_append_iff {stmt : Stmt} :
    StatementAt (lines ++ [line]) i stmt ↔
      StatementAt lines i stmt ∨ i = lines.length ∧ line.stmt = some stmt := by
  simp only [StatementAt, getElem?_concat_eq_some_iff]
  constructor
  · rintro ⟨other, hi | ⟨rfl, rfl⟩, hstmt⟩
    · exact .inl ⟨other, hi, hstmt⟩
    · exact .inr ⟨rfl, hstmt⟩
  · rintro (⟨other, hi, hstmt⟩ | ⟨rfl, hstmt⟩)
    · exact ⟨other, .inl hi, hstmt⟩
    · exact ⟨line, .inr ⟨rfl, rfl⟩, hstmt⟩

theorem standsFor_append_iff {name : String} :
    StandsFor (lines ++ [line]) name pos ↔
      StandsFor lines name pos ∨ line.label = some name ∧ pos = lineOffset lines lines.length := by
  simp only [StandsFor, getElem?_concat_eq_some_iff]
  constructor
  · rintro ⟨i, other, hi | ⟨rfl, rfl⟩, hlabel, rfl⟩
    · have hle := Nat.le_of_lt (List.getElem?_eq_some_iff.mp hi).1
      exact .inl ⟨i, other, hi, hlabel, lineOffset_append hle⟩
    · exact .inr ⟨hlabel, lineOffset_append (Nat.le_refl _)⟩
  · rintro (⟨i, other, hi, hlabel, rfl⟩ | ⟨hlabel, rfl⟩)
    · have hle := Nat.le_of_lt (List.getElem?_eq_some_iff.mp hi).1
      exact ⟨i, other, .inl hi, hlabel, (lineOffset_append hle).symm⟩
    · exact ⟨lines.length, line, .inr ⟨rfl, rfl⟩, hlabel,
        (lineOffset_append (Nat.le_refl _)).symm⟩

theorem exists_standsFor_iff {name : String} :
    (∃ pos, StandsFor lines name pos) ↔ ∃ line ∈ lines, line.label = some name := by
  constructor
  · rintro ⟨-, i, line, hi, hlabel, -⟩
    exact ⟨line, List.mem_of_getElem? hi, hlabel⟩
  · rintro ⟨line, hmem, hlabel⟩
    obtain ⟨i, hi⟩ := List.getElem?_of_mem hmem
    exact ⟨_, i, line, hi, hlabel, rfl⟩

end Lines

theorem Token.size_of_literal {t : Token} {x : String} (h : t.literal = .ok x) :
    x.utf8ByteSize ≤ maxTextSize := by
  cases t with
  | text v =>
    simp only [literal] at h
    split at h
    next hsize =>
      cases h
      exact hsize
    next => cases h
  | _ => cases h

theorem Shape.fits_of_parseLiteral {op : Opcode} {s : Shape} {args : List Token} {x : s.Operand}
    (hlength : args.length = s.arity) (h : s.parseLiteral op args = .ok x) : s.Fits x := by
  cases s with
  | text =>
    obtain ⟨t, rfl⟩ := List.length_eq_one_iff.mp hlength
    exact Token.size_of_literal h
  | bare | int | index | slot | offset | entry | upvar => trivial

theorem encodable_of_parseStmt {op : Opcode} {args : List Token} {stmt : Stmt}
    (h : parseStmt op args = .ok stmt) : stmt.skeleton.Encodable := by
  obtain ⟨⟨⟩, harity, hstmt⟩ := bind_eq_ok_iff.mp h
  split at hstmt
  next kind name hkind =>
    cases hstmt
    cases kind <;> trivial
  next name p n _ =>
    obtain ⟨params, -, hstmt⟩ := bind_eq_ok_iff.mp hstmt
    obtain ⟨slots, -, hstmt⟩ := bind_eq_ok_iff.mp hstmt
    cases hstmt
    trivial
  next =>
    cases hstmt
    trivial
  next =>
    obtain ⟨x, hx, hstmt⟩ := bind_eq_ok_iff.mp hstmt
    cases hstmt
    exact Shape.fits_of_parseLiteral (length_of_checkArity harity) hx

theorem encodable_of_readLine {source : List Char} {line : Line} {stmt : Stmt}
    (h : readLine source = .ok line) (hstmt : line.stmt = some stmt) :
    stmt.skeleton.Encodable := by
  obtain ⟨tokens, -, hparse⟩ := bind_eq_ok_iff.mp h
  have hbody := (parseLine_eq_ok hparse).2
  rw [hstmt] at hbody
  unfold parseBody at hbody
  split at hbody
  next => cases hbody
  next name args _ =>
    split at hbody
    next => cases hbody
    next op _ =>
      obtain ⟨stmt', hstmt', heq⟩ := bind_eq_ok_iff.mp hbody
      cases heq
      exact encodable_of_parseStmt hstmt'
  next => cases hbody

theorem Layout.addLine_eq {l : Layout} {number : Nat} {line : Line}
    (hnew : ∀ name, line.label = some name → l.labels.lookup name = none) :
    l.addLine number line = .ok
      { labels := (line.label.map fun name => (name, l.size)).toList ++ l.labels
        placed := (line.stmt.map fun stmt => ⟨number, l.size, stmt⟩).toList ++ l.placed
        size := l.size + line.size } := by
  obtain ⟨label, stmt⟩ := line
  cases label with
  | none => cases stmt <;> rfl
  | some name =>
    have hdefine : l.define name = .ok { l with labels := (name, l.size) :: l.labels } :=
      if_neg (by simp [hnew name rfl])
    simp only [addLine, hdefine, ok_bind]
    cases stmt <;> rfl

/-- The layout is that of these lines. -/
structure Layout.Of (l : Layout) (lines : List Line) : Prop where
  size : l.size = lineOffset lines lines.length
  statements : ∀ q, q ∈ l.statements ↔
    ∃ i stmt, StatementAt lines i stmt ∧ q = ⟨i + 1, lineOffset lines i, stmt⟩
  sorted : l.statements.Pairwise fun q r => q.line < r.line
  labels : ∀ name pos, l.labels.lookup name = some pos ↔ StandsFor lines name pos

namespace Layout.Of
variable {l : Layout} {lines : List Line}

theorem empty : Layout.empty.Of [] where
  size := rfl
  statements q := by simp [Layout.empty, Layout.statements, StatementAt]
  sorted := .nil
  labels name pos := by simp [Layout.empty, StandsFor]

theorem isSome_lookup_iff (h : l.Of lines) {name : String} :
    (l.labels.lookup name).isSome ↔ ∃ line ∈ lines, line.label = some name := by
  simp only [Option.isSome_iff_exists, h.labels, exists_standsFor_iff]

theorem addLine_duplicate (h : l.Of lines) {line : Line} {name : String}
    (hlabel : line.label = some name) (hdefined : ∃ other ∈ lines, other.label = some name)
    (number : Nat) : l.addLine number line = .error (.duplicateLabel name) := by
  have hsome := h.isSome_lookup_iff.mpr hdefined
  have hdefine : l.define name = .error (.duplicateLabel name) := if_pos hsome
  simp only [Layout.addLine, hlabel, hdefine, error_bind]

theorem addLine (h : l.Of lines) {line : Line}
    (hnew : ∀ name, line.label = some name → ¬ ∃ other ∈ lines, other.label = some name) :
    ∃ l', l.addLine (lines.length + 1) line = .ok l' ∧ l'.Of (lines ++ [line]) := by
  have hfree : ∀ name, line.label = some name → l.labels.lookup name = none := by
    intro name hlabel
    have hnone := hnew name hlabel
    rwa [← h.isSome_lookup_iff, Option.not_isSome_iff_eq_none] at hnone
  have hplaced : ∀ labels size, Layout.statements
      ⟨labels, (line.stmt.map fun stmt => ⟨lines.length + 1, l.size, stmt⟩).toList ++ l.placed,
        size⟩ =
        l.statements ++ (line.stmt.map fun stmt => ⟨lines.length + 1, l.size, stmt⟩).toList := by
    intro labels size
    cases line.stmt <;> simp [Layout.statements]
  refine ⟨_, Layout.addLine_eq hfree, ?_, ?_, ?_, ?_⟩
  · rw [lineOffset_all, ← h.size]
  · intro q
    rw [hplaced, List.mem_append, h.statements]
    simp only [statementAt_append_iff, Option.mem_toList, Option.map_eq_some_iff, h.size]
    constructor
    · rintro (⟨i, stmt, hstmt, rfl⟩ | ⟨stmt, hstmt, rfl⟩)
      · exact ⟨i, stmt, .inl hstmt, by rw [lineOffset_append (Nat.le_of_lt hstmt.lt)]⟩
      · exact ⟨_, stmt, .inr ⟨rfl, hstmt⟩, by rw [lineOffset_append (Nat.le_refl _)]⟩
    · rintro ⟨i, stmt, hstmt | ⟨rfl, hstmt⟩, rfl⟩
      · exact .inl ⟨i, stmt, hstmt, by rw [lineOffset_append (Nat.le_of_lt hstmt.lt)]⟩
      · exact .inr ⟨stmt, hstmt, by rw [lineOffset_append (Nat.le_refl _)]⟩
  · rw [hplaced, List.pairwise_append]
    refine ⟨h.sorted, by cases line.stmt <;> simp, fun q hq r hr => ?_⟩
    obtain ⟨i, stmt, hstmt, rfl⟩ := (h.statements q).mp hq
    obtain ⟨stmt', -, rfl⟩ := Option.map_eq_some_iff.mp (Option.mem_toList.mp hr)
    exact Nat.succ_lt_succ hstmt.lt
  · intro name pos
    rw [standsFor_append_iff, ← h.labels, ← h.size]
    cases hlabel : line.label with
    | none => simp
    | some name' =>
      by_cases hname : name = name'
      · subst hname
        simp [hfree name hlabel, eq_comm]
      · have hbeq : (name == name') = false := by simpa using hname
        simp [List.lookup_cons, hbeq, Ne.symm hname]

theorem addSource (h : l.Of lines) {earlier : List (List Char)}
    (hread : List.Forall₂ (fun s line => readLine s = .ok line) earlier lines)
    (source : List Char) :
    (∃ e, SourceFails earlier source e ∧ l.addSource (lines.length + 1) source = .error e) ∨
      (∀ e, ¬ SourceFails earlier source e) ∧ ∃ line l', readLine source = .ok line ∧
        l.addSource (lines.length + 1) source = .ok l' ∧ l'.Of (lines ++ [line]) := by
  unfold Layout.addSource readLine
  cases htokens : tokenize source with
  | error e => exact .inl ⟨e, .scan htokens, rfl⟩
  | ok tokens =>
    simp only [ok_bind]
    cases hparse : parseLine tokens with
    | error e => exact .inl ⟨e, .parse htokens hparse, rfl⟩
    | ok line =>
      simp only [ok_bind]
      have hdefined : ∀ name, (∃ s ∈ earlier, ∃ other, readLine s = .ok other ∧
          other.label = some name) ↔ ∃ other ∈ lines, other.label = some name := by
        intro name
        simp only [mem_iff_of_forall₂ hread]
        tauto
      by_cases hold : ∃ name, line.label = some name ∧ ∃ other ∈ lines, other.label = some name
      · obtain ⟨name, hlabel, hname⟩ := hold
        exact .inl ⟨_, .redefines htokens hparse hlabel ((hdefined name).mpr hname),
          h.addLine_duplicate hlabel hname _⟩
      · rw [not_exists] at hold
        obtain ⟨l', hadd, hof⟩ := h.addLine fun name hlabel hname => hold name ⟨hlabel, hname⟩
        refine .inr ⟨fun e hfails => ?_, line, l', rfl, hadd, hof⟩
        cases hfails with
        | scan hscan => simp [htokens] at hscan
        | parse hscan hfault =>
          rw [htokens] at hscan
          cases hscan
          simp [hparse] at hfault
        | redefines hscan hline hlabel hname =>
          rw [htokens] at hscan
          cases hscan
          rw [hparse] at hline
          cases hline
          exact hold _ ⟨hlabel, (hdefined _).mp hname⟩

theorem addSources (h : l.Of lines) {earlier rest : List (List Char)}
    (hread : List.Forall₂ (fun s line => readLine s = .ok line) earlier lines) :
    (∃ i e, FailsAt (earlier ++ rest) i e ∧
      (∀ j e', earlier.length ≤ j → FailsAt (earlier ++ rest) j e' → i ≤ j) ∧
      l.addSources (earlier.length + 1) rest = .error (.inLine (i + 1) e)) ∨
    (∀ j e, earlier.length ≤ j → ¬ FailsAt (earlier ++ rest) j e) ∧
      ∃ more l', List.Forall₂ (fun s line => readLine s = .ok line) (earlier ++ rest) more ∧
        l.addSources (earlier.length + 1) rest = .ok l' ∧ l'.Of more := by
  induction rest generalizing l lines earlier with
  | nil =>
    refine .inr ⟨fun j e hj => ?_, lines, l, by simpa using hread, rfl, h⟩
    rintro ⟨source, hsource, -⟩
    simp [List.getElem?_eq_none hj] at hsource
  | cons source rest ih =>
    have hlength : lines.length = earlier.length := hread.length_eq.symm
    have hhere : ∀ e, FailsAt (earlier ++ source :: rest) earlier.length e ↔
        SourceFails earlier source e := by
      intro e
      simp [FailsAt]
    rcases h.addSource hread source with ⟨e, hfails, hadd⟩ | ⟨hnone, line, mid, hline, hadd, hof⟩
    · rw [hlength] at hadd
      refine .inl ⟨earlier.length, e, (hhere e).mpr hfails, fun j _ hj _ => hj, ?_⟩
      simp only [Layout.addSources, hadd]
    · rw [hlength] at hadd
      have hreads : List.Forall₂ (fun s line => readLine s = .ok line) (earlier ++ [source])
          (lines ++ [line]) := List.rel_append hread (.cons hline .nil)
      have hstep : l.addSources (earlier.length + 1) (source :: rest) =
          mid.addSources ((earlier ++ [source]).length + 1) rest := by
        simp only [Layout.addSources, hadd, List.length_append, List.length_singleton]
      have hlater : ∀ j e, earlier.length ≤ j → FailsAt (earlier ++ source :: rest) j e →
          (earlier ++ [source]).length ≤ j := by
        intro j e hj hfails
        rcases Nat.eq_or_lt_of_le hj with rfl | hlt
        · exact absurd ((hhere e).mp hfails) (hnone e)
        · rw [List.length_append, List.length_singleton]
          exact hlt
      have hsplit : (earlier ++ [source]) ++ rest = earlier ++ source :: rest := by simp
      have hrest := ih hof hreads
      rw [hsplit] at hrest
      rw [hstep]
      rcases hrest with ⟨i, e, hfails, hfirst, herror⟩ | ⟨hnever, hok⟩
      · exact .inl ⟨i, e, hfails, fun j e' hj hf => hfirst j e' (hlater j e' hj hf) hf, herror⟩
      · exact .inr ⟨fun j e hj hf => hnever j e (hlater j e hj hf) hf, hok⟩

end Layout.Of

/-- Laying out a text stops at its first line that fails, and otherwise lays out all lines. -/
theorem Layout.addSources_empty (sources : List (List Char)) :
    (∃ i e, FirstAt (FailsAt sources) i e ∧
      Layout.empty.addSources 1 sources = .error (.inLine (i + 1) e)) ∨
    (¬ ∃ i e, FailsAt sources i e) ∧ ∃ lines l, sources.mapM readLine = .ok lines ∧
      Layout.empty.addSources 1 sources = .ok l ∧ l.Of lines := by
  rcases @Layout.Of.addSources _ _ .empty [] sources .nil with
    ⟨i, e, hfails, hfirst, herror⟩ | ⟨hnever, lines, l, hread, hok, hof⟩
  · exact .inl ⟨i, e, ⟨hfails, fun j e' hj => hfirst j e' (Nat.zero_le j) hj⟩, herror⟩
  · refine .inr ⟨?_, lines, l, mapM_eq_ok_iff.mpr hread, hok, hof⟩
    rintro ⟨i, e, hfails⟩
    exact hnever i e (Nat.zero_le i) hfails

end StackVM
