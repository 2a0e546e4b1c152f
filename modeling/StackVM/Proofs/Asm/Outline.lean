import StackVM.Proofs.Asm.Placement.Rows
import StackVM.Proofs.Asm.Spacing.Lines

/-! # The outline of a text

A text is worth its labels and statements, in order. How they are spread over lines shows in the
line numbers of errors and nowhere else, so texts with the same outline assemble to the same
program. The outline of a text is put together from those of its lines, and what stands before and
after a line can be read without it.
-/
namespace StackVM

/-- What a line can contribute: the definition of a label, or a statement. -/
inductive Item
  | label (name : String)
  | stmt (stmt : Stmt)
  deriving DecidableEq

def Line.items (line : Line) : List Item :=
  (line.label.map Item.label).toList ++ (line.stmt.map Item.stmt).toList

/-- The labels and statements of source lines. -/
def outline (sources : List (List Char)) : Except LineFault (List Item) := do
  return (← sources.mapM readLine).flatMap Line.items

section Outline
variable {source : List Char} {sources sources' : List (List Char)} {items : List Item}

theorem outline_cons_iff :
    outline (source :: sources) = .ok items ↔ ∃ line later, readLine source = .ok line ∧
      outline sources = .ok later ∧ items = line.items ++ later := by
  rw [← map₂_eq_ok_iff]
  simp [outline, List.mapM_cons]

theorem outline_singleton_iff :
    outline [source] = .ok items ↔ ∃ line, readLine source = .ok line ∧ items = line.items := by
  have hnone : outline [] = .ok [] := rfl
  simp [outline_cons_iff, hnone]

theorem outline_append_iff :
    outline (sources ++ sources') = .ok items ↔ ∃ before after, outline sources = .ok before ∧
      outline sources' = .ok after ∧ items = before ++ after := by
  rw [← map₂_eq_ok_iff]
  simp [outline, List.mapM_append]

end Outline

def Placed.unnumbered (q : Placed) : Placed := { q with line := 0 }

namespace Layout

/-- The layout without the numbers of its lines. -/
def unnumbered (l : Layout) : Layout := { l with placed := l.placed.map Placed.unnumbered }

def addItem (l : Layout) : Item → Except LineFault Layout
  | .label name => l.define name
  | .stmt stmt => .ok (l.place 0 stmt)

theorem unnumbered_define (l : Layout) (name : String) :
    unnumbered <$> l.define name = l.unnumbered.define name := by
  unfold define
  split <;> simp_all [unnumbered]

/-- A line is laid out as its items are, apart from its number. -/
theorem unnumbered_addLine (l : Layout) (number : Nat) (line : Line) :
    unnumbered <$> l.addLine number line = line.items.foldlM addItem l.unnumbered := by
  have hstmt : ∀ (l : Layout) (stmt? : Option Stmt),
      unnumbered <$> l.addLine number ⟨none, stmt?⟩ =
        (stmt?.map Item.stmt).toList.foldlM addItem l.unnumbered := by
    rintro l (_ | stmt) <;> rfl
  obtain ⟨label, stmt?⟩ := line
  cases label with
  | none => exact hstmt l stmt?
  | some name =>
    change unnumbered <$> (l.define name >>= fun l => l.addLine number ⟨none, stmt?⟩) =
      (l.unnumbered.define name >>= (stmt?.map Item.stmt).toList.foldlM addItem)
    rw [← unnumbered_define, map_bind, bind_map_left]
    exact bind_congr fun l => hstmt l stmt?

theorem addSource_eq (l : Layout) (number : Nat) (source : List Char) :
    l.addSource number source = readLine source >>= l.addLine number := by
  simp only [addSource, readLine, bind_assoc]

theorem exists_addSources_iff {l m : Layout} {number : Nat} {sources : List (List Char)} :
    (∃ l', l.addSources number sources = .ok l' ∧ l'.unnumbered = m) ↔
      ∃ items, outline sources = .ok items ∧ items.foldlM addItem l.unnumbered = .ok m := by
  induction sources generalizing l number with
  | nil =>
    have hnone : outline [] = .ok [] := rfl
    simp [addSources, hnone, pure, Except.pure]
  | cons source sources ih =>
    simp only [outline_cons_iff]
    rw [addSources, addSource_eq]
    cases hread : readLine source with
    | error e => simp [error_bind]
    | ok line =>
      have hline := l.unnumbered_addLine number line
      cases hadd : l.addLine number line with
      | error e =>
        rw [hadd] at hline
        simp [ok_bind, hadd, List.foldlM_append, ← hline, error_bind]
      | ok l₁ =>
        rw [hadd] at hline
        simp [ok_bind, hadd, List.foldlM_append, ← hline, ih]

theorem statements_unnumbered (l : Layout) :
    l.unnumbered.statements = l.statements.map Placed.unnumbered := List.map_reverse.symm

theorem checkDefined_eq_ok_iff {l : Layout} :
    l.checkDefined = .ok () ↔ ∀ q ∈ l.statements, ∀ name, q.stmt.target? = some name →
      (l.labels.lookup name).isSome := by
  constructor
  · intro h q hq name hname
    simp [lookup_of_checkDefined h hq hname]
  · intro h
    unfold checkDefined
    dsimp only
    rw [List.findSome?_eq_none_iff.mpr]
    intro q hq
    cases hname : q.stmt.target? with
    | none => rfl
    | some name => simp only [h q hq name hname, if_true]

theorem checkDefined_unnumbered (l : Layout) :
    l.unnumbered.checkDefined = .ok () ↔ l.checkDefined = .ok () := by
  rw [checkDefined_eq_ok_iff, checkDefined_eq_ok_iff, statements_unnumbered, List.forall_mem_map]
  rfl

theorem program_unnumbered (l : Layout) : l.unnumbered.program = l.program := by
  have hresolve : l.unnumbered.resolve ∘ Placed.unnumbered = l.resolve := by
    funext ⟨line, pos, stmt⟩
    cases stmt <;> rfl
  rw [program, statements_unnumbered, List.mapM_map, hresolve, program]

end Layout

/-- The program that labels and statements describe. -/
def Describes (items : List Item) (p : Program) : Prop :=
  ∃ l, items.foldlM Layout.addItem .empty = .ok l ∧ l.checkDefined = .ok () ∧ l.program = .ok p

/-- A text assembles to what its outline describes. -/
theorem assemble_eq_ok_iff {text : String} {p : Program} :
    assemble text = .ok p ↔
      ∃ items, outline (Text.lines text) = .ok items ∧ Describes items p := by
  constructor
  · intro h
    obtain ⟨l, instrs, hlayout, hdefined, hresolve, hprogram⟩ := exists_layout_of_assemble h
    obtain ⟨items, houtline, hitems⟩ := Layout.exists_addSources_iff.mp ⟨l, hlayout, rfl⟩
    refine ⟨items, houtline, l.unnumbered, hitems, l.checkDefined_unnumbered.mpr hdefined, ?_⟩
    rw [l.program_unnumbered]
    exact bind_eq_ok_iff.mpr ⟨instrs, hresolve, hprogram⟩
  · rintro ⟨items, houtline, m, hitems, hdefined, hprogram⟩
    have hlayout : ∃ l, Layout.empty.addSources 1 (Text.lines text) = .ok l ∧ l.unnumbered = m :=
      Layout.exists_addSources_iff.mpr ⟨items, houtline, hitems⟩
    obtain ⟨l, hlayout, rfl⟩ := hlayout
    unfold assemble
    rw [hlayout, ok_bind, l.checkDefined_unnumbered.mp hdefined, ok_bind, ← l.program_unnumbered,
      hprogram]

namespace Text

theorem linesFrom_cons (done : List (List Char)) (rev : List Char) (c : Char) (cs : List Char) :
    linesFrom done rev (c :: cs) =
      if c = '\n' then linesFrom (closeLine rev :: done) [] cs else linesFrom done (c :: rev) cs :=
  rfl

theorem linesFrom_eq (done : List (List Char)) (rev cs : List Char) :
    linesFrom done rev cs = done.reverse ++ linesFrom [] rev cs := by
  induction cs generalizing done rev with
  | nil =>
    unfold linesFrom
    split <;> simp
  | cons c cs ih =>
    rw [linesFrom_cons, linesFrom_cons]
    split
    next =>
      rw [ih (closeLine rev :: done), ih [closeLine rev]]
      simp
    next => exact ih done (c :: rev)

theorem linesFrom_feed (rev cs rest : List Char) :
    linesFrom [] rev (cs ++ '\n' :: rest) =
      linesFrom [] rev (cs ++ ['\n']) ++ linesFrom [] [] rest := by
  induction cs generalizing rev with
  | nil => exact linesFrom_eq [closeLine rev] [] rest
  | cons c cs ih =>
    rw [List.cons_append, List.cons_append, linesFrom_cons, linesFrom_cons]
    split
    next => rw [linesFrom_eq, ih, linesFrom_eq [closeLine rev], List.append_assoc]
    next => exact ih (c :: rev)

theorem linesFrom_last {line : List Char} (h : '\n' ∉ line) (rev : List Char) :
    linesFrom [] rev line =
      if (rev.reverse ++ line).isEmpty then [] else [rev.reverse ++ line] := by
  induction line generalizing rev with
  | nil => cases rev <;> simp [linesFrom]
  | cons c line ih =>
    simp only [List.mem_cons, not_or] at h
    rw [linesFrom_cons, if_neg (Ne.symm h.1), ih h.2]
    simp

end Text

/-- The outline of a text, given by its characters. -/
def Tells (cs : List Char) (items : List Item) : Prop :=
  outline (Text.linesFrom [] [] cs) = .ok items

/-- Nothing but whole lines, each with its line feed. -/
def WholeLines (cs : List Char) : Prop := cs = [] ∨ ∃ ds, cs = ds ++ ['\n']

/-- A line before these characters ends there. -/
def EndsLine (cs : List Char) : Prop := cs = [] ∨ ∃ ds, cs = '\n' :: ds

section Tells
variable {cs line rest : List Char} {lines : List (List Char)} {items : List Item}

theorem tells_nil_iff : Tells [] items ↔ items = [] := by
  change Except.ok [] = Except.ok items ↔ _
  rw [Except.ok.injEq, eq_comm]

theorem tells_append_iff (h : WholeLines cs) :
    Tells (cs ++ rest) items ↔ ∃ before after, Tells cs before ∧ Tells rest after ∧
      items = before ++ after := by
  rcases h with rfl | ⟨ds, rfl⟩
  · simp [tells_nil_iff]
  · rw [Tells, List.append_assoc, List.singleton_append, Text.linesFrom_feed, outline_append_iff]
    rfl

theorem outline_closeLine_iff :
    outline [Text.closeLine line.reverse] = .ok items ↔ outline [line] = .ok items := by
  unfold Text.closeLine
  split
  next rev hrev =>
    have hline : line = rev.reverse ++ ['\r'] := by
      rw [← List.reverse_reverse line, hrev, List.reverse_cons]
    simp only [hline, outline_singleton_iff, readLine_append_gap isGap_return]
  next => rw [List.reverse_reverse]

theorem tells_line_iff (hline : '\n' ∉ line) (hrest : EndsLine rest) :
    Tells (line ++ rest) items ↔ ∃ here after, outline [line] = .ok here ∧ Tells rest.tail after ∧
      items = here ++ after := by
  rcases hrest with rfl | ⟨rest, rfl⟩
  · have hlast : Tells line items ↔ outline [line] = .ok items := by
      rw [Tells, Text.linesFrom_last hline, List.reverse_nil, List.nil_append]
      cases line <;> rfl
    simp [hlast, tells_nil_iff]
  · rw [Tells, Text.linesFrom_line hline, List.append_nil, Text.linesFrom_eq, outline_append_iff]
    simp only [List.reverse_singleton, outline_closeLine_iff]
    rfl

theorem tells_lines_iff (hne : lines ≠ []) (hlines : ∀ line ∈ lines, '\n' ∉ line)
    (hrest : EndsLine rest) :
    Tells (['\n'].intercalate lines ++ rest) items ↔ ∃ here after, outline lines = .ok here ∧
      Tells rest.tail after ∧ items = here ++ after := by
  induction lines generalizing items with
  | nil => exact absurd rfl hne
  | cons line lines ih =>
    obtain ⟨hline, hlines⟩ := List.forall_mem_cons.mp hlines
    by_cases hlast : lines = []
    · subst hlast
      rw [List.intercalate_singleton]
      exact tells_line_iff hline hrest
    · rw [List.intercalate_cons_of_ne_nil hlast, List.append_assoc, List.append_assoc,
        List.singleton_append, tells_line_iff hline (.inr ⟨_, rfl⟩), List.tail_cons]
      simp only [ih hlast hlines]
      constructor
      · rintro ⟨here, _, hhere, ⟨later, after, hlater, hafter, rfl⟩, rfl⟩
        refine ⟨here ++ later, after, ?_, hafter, (List.append_assoc ..).symm⟩
        exact outline_append_iff.mpr ⟨here, later, hhere, hlater, rfl⟩
      · rintro ⟨_, after, hlines, hafter, rfl⟩
        rw [← List.singleton_append, outline_append_iff] at hlines
        obtain ⟨here, later, hhere, hlater, rfl⟩ := hlines
        exact ⟨here, _, hhere, ⟨later, after, hlater, hafter, rfl⟩, List.append_assoc ..⟩

end Tells

end StackVM
