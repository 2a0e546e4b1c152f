import StackVM.Proofs.Asm.OnePass.Outcome

/-! # How assembly fails

A text fails for the first line that fails by itself, else for the first reference to a label that
no line defines, else for the first label whose position does not fit the operand that refers to
it; otherwise it assembles. A pass with a builder and a table of names fails for the same reasons,
so of the errors of a builder only positions out of range come to light.
-/
namespace StackVM

/-- The line with this index refers to a label that no line defines. -/
def UndefinedAt (lines : List Line) (i : Nat) (name : String) : Prop :=
  ∃ stmt, StatementAt lines i stmt ∧ stmt.target? = some name ∧
    ¬ ∃ line ∈ lines, line.label = some name

/-- The position of a label does not fit the operand of the statement at an offset. -/
inductive Stmt.Misfits (target : String → Nat → Prop) (pos : Nat) : Stmt → CodeError → Prop
  | branch {kind : Branch} {name : String} {t : Nat} : target name t →
      ¬ InReach (pos + (Stmt.branch kind name).size) t →
      Misfits target pos (.branch kind name)
        (.offsetOutOfRange (pos + (Stmt.branch kind name).size) t)
  | closure {name : String} {params slots : UInt8} {t : Nat} : target name t →
      ¬ InReach (pos + (Stmt.closure name params slots).size) t →
      Misfits target pos (.closure name params slots)
        (.offsetOutOfRange (pos + (Stmt.closure name params slots).size) t)
  | patch {name : String} {t : Nat} : target name t → 65536 ≤ t + 1 →
      Misfits target pos (.patch name) (.offsetOutOfRange (pos + 1) (t + 1))

/-- The statement of the line with this index has a label that does not fit. -/
def MisfitAt (lines : List Line) (i : Nat) (e : CodeError) : Prop :=
  ∃ stmt, StatementAt lines i stmt ∧ stmt.Misfits (StandsFor lines) (lineOffset lines i) e

theorem Layout.encodable_of_resolve {l : Layout} {q : Placed} {i : Instr}
    (h : l.resolve q = .ok i) (hq : q.stmt.skeleton.Encodable) : i.Encodable := by
  obtain ⟨number, pos, stmt⟩ := q
  cases stmt with
  | plain j =>
    cases h
    exact hq
  | branch kind name =>
    obtain ⟨d, -, hi⟩ := bind_eq_ok_iff.mp h
    cases hi
    cases kind <;> trivial
  | closure name params slots =>
    obtain ⟨d, -, hi⟩ := bind_eq_ok_iff.mp h
    cases hi
    trivial
  | patch name =>
    obtain ⟨address, -, hi⟩ := bind_eq_ok_iff.mp h
    cases hi
    trivial

namespace Layout.Of
variable {l : Layout} {lines : List Line}

theorem firstAt {β : Type} {reports : Placed → β → Prop} {b : β} (h : l.Of lines)
    (hfirst : FirstReport reports l.statements b) :
    ∃ i, FirstAt (fun i b => ∃ stmt, StatementAt lines i stmt ∧
      reports ⟨i + 1, lineOffset lines i, stmt⟩ b) i b := by
  obtain ⟨q, hq, hreport, hleast⟩ := hfirst.least h.sorted
  obtain ⟨i, stmt, hstmt, rfl⟩ := (h.statements q).mp hq
  refine ⟨i, ⟨stmt, hstmt, hreport⟩, ?_⟩
  rintro j c ⟨stmt', hstmt', hreport'⟩
  rcases hleast _ ((h.statements _).mpr ⟨j, stmt', hstmt', rfl⟩) c hreport' with heq | hlt
  · exact Nat.le_of_eq (Nat.succ.inj (congrArg Placed.line heq)).symm
  · exact Nat.le_of_lt (Nat.lt_of_succ_lt_succ hlt)

theorem undefinedAt_iff (h : l.Of lines) {i : Nat} {name : String} :
    UndefinedAt lines i name ↔ ∃ stmt, StatementAt lines i stmt ∧
      l.undefined? ⟨i + 1, lineOffset lines i, stmt⟩ = some (i + 1, name) := by
  simp only [UndefinedAt, Layout.undefined?_eq_some_iff, ← h.isSome_lookup_iff,
    Option.not_isSome_iff_eq_none, and_true]

theorem checkDefined (h : l.Of lines) :
    (∃ i name, FirstAt (UndefinedAt lines) i name ∧
      l.checkDefined = .error (.inLine (i + 1) (.undefinedLabel name))) ∨
    (¬ ∃ i name, UndefinedAt lines i name) ∧ l.checkDefined = .ok () := by
  rw [Layout.checkDefined_eq]
  cases hfind : l.statements.findSome? l.undefined? with
  | none =>
    refine .inr ⟨?_, rfl⟩
    rintro ⟨i, name, hundefined⟩
    obtain ⟨stmt, hstmt, hreport⟩ := h.undefinedAt_iff.mp hundefined
    have hmem := (h.statements _).mpr ⟨i, stmt, hstmt, rfl⟩
    rw [List.findSome?_eq_none_iff.mp hfind _ hmem] at hreport
    cases hreport
  | some use =>
    obtain ⟨number, name⟩ := use
    obtain ⟨i, ⟨stmt, hstmt, hreport⟩, hleast⟩ :=
      h.firstAt (findSome?_eq_some_iff_firstReport.mp hfind)
    obtain rfl : i + 1 = number := (Layout.undefined?_eq_some_iff.mp hreport).2.2
    refine .inl ⟨i, name, ⟨h.undefinedAt_iff.mpr ⟨stmt, hstmt, hreport⟩, ?_⟩, rfl⟩
    intro j name' hundefined
    exact hleast j _ (h.undefinedAt_iff.mp hundefined)

theorem resolve_eq_error_iff (h : l.Of lines) {q : Placed} {e : CodeError}
    (hdefined : ∀ name, q.stmt.target? = some name →
      l.labels.lookup name = some (l.position name)) :
    l.resolve q = .error e ↔ q.stmt.Misfits (StandsFor lines) q.pos e := by
  obtain ⟨number, pos, stmt⟩ := q
  have htarget : ∀ {name t}, stmt.target? = some name →
      (StandsFor lines name t ↔ l.position name = t) := by
    intro name t hname
    rw [← h.labels, hdefined name hname, Option.some.injEq]
  cases stmt with
  | plain i =>
    constructor
    · intro herror
      cases herror
    · rintro ⟨⟩
  | branch kind name =>
    change (distanceTo (pos + (Stmt.branch kind name).size) (l.position name) >>= _) = _ ↔ _
    rw [bind_eq_error_iff, distanceTo_eq_error_iff]
    constructor
    · rintro (⟨hfar, rfl⟩ | ⟨d, -, herror⟩)
      · exact .branch ((htarget rfl).mpr rfl) hfar
      · cases herror
    · intro hmisfits
      cases hmisfits with
      | branch ht hfar =>
        obtain rfl := (htarget rfl).mp ht
        exact .inl ⟨hfar, rfl⟩
  | closure name params slots =>
    change (distanceTo (pos + (Stmt.closure name params slots).size) (l.position name) >>= _) = _ ↔
      _
    rw [bind_eq_error_iff, distanceTo_eq_error_iff]
    constructor
    · rintro (⟨hfar, rfl⟩ | ⟨d, -, herror⟩)
      · exact .closure ((htarget rfl).mpr rfl) hfar
      · cases herror
    · intro hmisfits
      cases hmisfits with
      | closure ht hfar =>
        obtain rfl := (htarget rfl).mp ht
        exact .inl ⟨hfar, rfl⟩
  | patch name =>
    change (operandAddress (pos + 1) (l.position name) >>= _) = _ ↔ _
    rw [bind_eq_error_iff, operandAddress_eq_error_iff]
    constructor
    · rintro (⟨hhigh, rfl⟩ | ⟨address, -, herror⟩)
      · exact .patch ((htarget rfl).mpr rfl) hhigh
      · cases herror
    · intro hmisfits
      cases hmisfits with
      | patch ht hhigh =>
        obtain rfl := (htarget rfl).mp ht
        exact .inl ⟨hhigh, rfl⟩

theorem program (h : l.Of lines) (hdefined : l.checkDefined = .ok ())
    (hbytes : ∀ i stmt, StatementAt lines i stmt → stmt.skeleton.Encodable) :
    (∃ i e, FirstAt (MisfitAt lines) i e ∧ l.program = .error e) ∨
    (¬ ∃ i e, MisfitAt lines i e) ∧ ∃ p, l.program = .ok p := by
  have hmisfit : ∀ {i e}, MisfitAt lines i e ↔ ∃ stmt, StatementAt lines i stmt ∧
      l.resolve ⟨i + 1, lineOffset lines i, stmt⟩ = .error e := by
    intro i e
    refine exists_congr fun stmt => and_congr_right fun hstmt => ?_
    have hmem := (h.statements _).mpr ⟨i, stmt, hstmt, rfl⟩
    exact (h.resolve_eq_error_iff fun name hname =>
      Layout.lookup_of_checkDefined hdefined hmem hname).symm
  unfold Layout.program
  cases hinstrs : l.statements.mapM l.resolve with
  | error e =>
    obtain ⟨i, hfirst⟩ := h.firstAt (mapM_eq_error_iff.mp hinstrs)
    simp only [← hmisfit] at hfirst
    exact .inl ⟨i, e, hfirst, rfl⟩
  | ok instrs =>
    refine .inr ⟨?_, ?_⟩
    · rintro ⟨i, e, hi⟩
      obtain ⟨stmt, hstmt, hresolve⟩ := hmisfit.mp hi
      have hmem := (h.statements _).mpr ⟨i, stmt, hstmt, rfl⟩
      obtain ⟨e', hfirst⟩ : ∃ e', FirstReport (fun q e => l.resolve q = .error e) l.statements e' :=
        exists_firstReport_iff.mpr ⟨_, hmem, e, hresolve⟩
      rw [← mapM_eq_error_iff, hinstrs] at hfirst
      cases hfirst
    · have hencodable : ∀ i ∈ instrs, i.Encodable := by
        intro i hi
        obtain ⟨q, hq, hresolve⟩ := (mem_iff_of_forall₂ (mapM_eq_ok_iff.mp hinstrs)).mp hi
        obtain ⟨k, stmt, hstmt, rfl⟩ := (h.statements q).mp hq
        exact Layout.encodable_of_resolve hresolve (hbytes k stmt hstmt)
      exact ⟨⟨(instrs.flatMap Instr.bytes).toArray⟩,
        Program.ofInstrs_eq_ok_iff.mpr ⟨hencodable, rfl⟩⟩

end Layout.Of

theorem Stmt.Misfits.eq_offsetOutOfRange {target : String → Nat → Prop} {pos : Nat} {stmt : Stmt}
    {e : CodeError} (h : stmt.Misfits target pos e) :
    ∃ source target, e = .offsetOutOfRange source target := by
  cases h <;> exact ⟨_, _, rfl⟩

/-- The four ways in which assembly ends. -/
theorem assemble_cases (text : String) :
    (∃ i e, FirstAt (FailsAt (Text.lines text)) i e ∧
      assemble text = .error (.inLine (i + 1) e)) ∨
    (¬ ∃ i e, FailsAt (Text.lines text) i e) ∧
      ∃ lines, (Text.lines text).mapM readLine = .ok lines ∧
        ((∃ i name, FirstAt (UndefinedAt lines) i name ∧
          assemble text = .error (.inLine (i + 1) (.undefinedLabel name))) ∨
        (¬ ∃ i name, UndefinedAt lines i name) ∧
          ((∃ i e, FirstAt (MisfitAt lines) i e ∧ assemble text = .error (.layout e)) ∨
          (¬ ∃ i e, MisfitAt lines i e) ∧ ∃ p, assemble text = .ok p)) := by
  unfold assemble
  rcases Layout.addSources_empty (Text.lines text) with
    ⟨i, e, hfirst, herror⟩ | ⟨hnone, lines, l, hread, hok, hof⟩
  · rw [herror, error_bind]
    exact .inl ⟨i, e, hfirst, rfl⟩
  · rw [hok, ok_bind]
    refine .inr ⟨hnone, lines, hread, ?_⟩
    rcases hof.checkDefined with ⟨i, name, hfirst, herror⟩ | ⟨hall, hdefined⟩
    · rw [herror, error_bind]
      exact .inl ⟨i, name, hfirst, rfl⟩
    · rw [hdefined, ok_bind]
      refine .inr ⟨hall, ?_⟩
      have hbytes : ∀ i stmt, StatementAt lines i stmt → stmt.skeleton.Encodable := by
        rintro i stmt ⟨line, hline, hstmt⟩
        obtain ⟨source, -, hsource⟩ :=
          (mem_iff_of_forall₂ (mapM_eq_ok_iff.mp hread)).mp (List.mem_of_getElem? hline)
        exact encodable_of_readLine hsource hstmt
      rcases hof.program hdefined hbytes with ⟨i, e, hfirst, herror⟩ | ⟨hfits, p, hp⟩
      · rw [herror]
        exact .inl ⟨i, e, hfirst, rfl⟩
      · rw [hp]
        exact .inr ⟨hfits, p, rfl⟩

theorem offsetOutOfRange_of_assemble {text : String} {e : CodeError}
    (h : assemble text = .error (.layout e)) :
    ∃ source target, e = .offsetOutOfRange source target := by
  rcases assemble_cases text with ⟨i, fault, -, hresult⟩ | ⟨-, lines, -, hlines⟩
  · rw [hresult] at h
    cases h
  · rcases hlines with ⟨i, name, -, hresult⟩ | ⟨-, ⟨i, e', hfirst, hresult⟩ | ⟨-, p, hresult⟩⟩
    · rw [hresult] at h
      cases h
    · rw [hresult] at h
      cases h
      obtain ⟨stmt, -, hmisfits⟩ := hfirst.1
      exact hmisfits.eq_offsetOutOfRange
    · rw [hresult] at h
      cases h

/-- Failures of assembly are exact and come in order. The first line that cannot be scanned, cannot
be parsed or redefines a label is reported; if there is none, the first line that refers to a label
without a definition; if there is none, the first label whose position does not fit its operand.
Otherwise the text assembles. No other errors of the layout exist, and a pass with a builder gives
the same result, in whatever order its table of names is listed. -/
theorem assemble_failures_exact (text : String) :
    let sources := Text.lines text
    ((∃ i e, FailsAt sources i e) →
      ∃ i e, FirstAt (FailsAt sources) i e ∧ assemble text = .error (.inLine (i + 1) e)) ∧
    ((¬ ∃ i e, FailsAt sources i e) → ∃ lines, sources.mapM readLine = .ok lines ∧
      ((∃ i name, UndefinedAt lines i name) → ∃ i name, FirstAt (UndefinedAt lines) i name ∧
        assemble text = .error (.inLine (i + 1) (.undefinedLabel name))) ∧
      ((¬ ∃ i name, UndefinedAt lines i name) →
        ((∃ i e, MisfitAt lines i e) →
          ∃ i e, FirstAt (MisfitAt lines) i e ∧ assemble text = .error (.layout e)) ∧
        ((¬ ∃ i e, MisfitAt lines i e) → ∃ p, assemble text = .ok p))) ∧
    (∀ e, assemble text = .error (.layout e) →
      ∃ source target, e = .offsetOutOfRange source target) ∧
    ∀ order, assembleInOnePass order text = assemble text := by
  intro sources
  refine ⟨?_, ?_, fun e => offsetOutOfRange_of_assemble,
    fun order => assembleInOnePass_eq order text⟩
  · intro hsome
    rcases assemble_cases text with hfirst | ⟨hnone, -⟩
    · exact hfirst
    · exact absurd hsome hnone
  · intro hnone
    rcases assemble_cases text with ⟨i, e, hfirst, -⟩ | ⟨-, lines, hread, hlines⟩
    · exact absurd ⟨i, e, hfirst.1⟩ hnone
    · refine ⟨lines, hread, ?_⟩
      rcases hlines with ⟨i, name, hfirst, hresult⟩ | ⟨hall, hlines⟩
      · exact ⟨fun _ => ⟨i, name, hfirst, hresult⟩, fun hall => absurd ⟨i, name, hfirst.1⟩ hall⟩
      · refine ⟨fun hsome => absurd hsome hall, fun _ => ?_⟩
        rcases hlines with ⟨i, e, hfirst, hresult⟩ | ⟨hfits, hp⟩
        · exact ⟨fun _ => ⟨i, e, hfirst, hresult⟩, fun hfits => absurd ⟨i, e, hfirst.1⟩ hfits⟩
        · exact ⟨fun hsome => absurd hsome hfits, fun _ => hp⟩

/-- Two references to labels without a definition, and after them a line that fails. -/
def brokenText : String := "JMP far\nJMP near\nhalt 3"

theorem assemble_failures_exact_brokenText :
    FailsAt (Text.lines brokenText) 2 (.unexpectedToken "3") ∧
    (∃ i e, FirstAt (FailsAt (Text.lines brokenText)) i e ∧
      assemble brokenText = .error (.inLine (i + 1) e)) ∧
    assemble brokenText = .error (.inLine 3 (.unexpectedToken "3")) := by
  have hlines : Text.lines brokenText =
      ["JMP far".toList, "JMP near".toList, "halt 3".toList] := by decide +kernel
  have hfails : FailsAt (Text.lines brokenText) 2 (.unexpectedToken "3") := by
    rw [hlines]
    refine ⟨"halt 3".toList, rfl, @SourceFails.parse _ _ [.ident "halt", .number 3] _ ?_ ?_⟩
    · decide +kernel
    · decide +kernel
  exact ⟨hfails, (assemble_failures_exact brokenText).1 ⟨2, _, hfails⟩, by decide +kernel⟩

example : assemble "JMP far\nJMP near" = .error (.inLine 1 (.undefinedLabel "far")) := by
  decide +kernel

end StackVM
