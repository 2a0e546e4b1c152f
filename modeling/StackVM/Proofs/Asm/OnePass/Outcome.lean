import StackVM.Proofs.Asm.OnePass.Tracking

/-! # Assembly in one pass

The pass gives the same program and the same errors as the layout. In particular the builder never
reports a text that is too long, since no such text is parsed, nor a label without a position, since
undefined names are reported before it finishes.
-/
namespace StackVM

/-- The line and the name of a statement whose name is not defined. -/
def Layout.undefined? (l : Layout) (q : Placed) : Option (Nat × String) :=
  match q.stmt.target? with
  | some name => if (l.labels.lookup name).isSome then none else some (q.line, name)
  | none => none

theorem Layout.checkDefined_eq (l : Layout) :
    l.checkDefined = match l.statements.findSome? l.undefined? with
      | some (line, name) => .error (.inLine line (.undefinedLabel name))
      | none => .ok () := rfl

theorem Layout.undefined?_eq_some_iff {l : Layout} {q : Placed} {number : Nat} {name : String} :
    l.undefined? q = some (number, name) ↔
      q.stmt.target? = some name ∧ l.labels.lookup name = none ∧ q.line = number := by
  unfold undefined?
  split
  next name' htarget =>
    rw [htarget]
    by_cases hname : name' = name
    · subst hname
      cases l.labels.lookup name' <;> simp
    · split <;> simp [hname]
  next htarget => simp [htarget]

theorem Layout.firstUse_eq_some_iff {l : Layout} {name : String} {number : Nat} :
    l.firstUse name = some number ↔
      FirstReport (fun q k => q.stmt.target? = some name ∧ q.line = k) l.statements number := by
  rw [firstUse, findSome?_eq_some_iff_firstReport]
  apply firstReport_congr
  intro q _ k
  split <;> simp_all

theorem Layout.exists_of_firstUse {l : Layout} {name : String} {number : Nat}
    (h : l.firstUse name = some number) :
    ∃ q ∈ l.statements, q.stmt.target? = some name ∧ q.line = number := by
  obtain ⟨before, q, after, hsplit, hq, -⟩ := firstUse_eq_some_iff.mp h
  exact ⟨q, by simp [hsplit], hq⟩

namespace Pass.Tracks
variable {p : Pass} {l : Layout} {xs : List Piece}

theorem mem_missing_iff (h : p.Tracks l xs) (order : TableOrder) {number : Nat} {name : String} :
    toLex (number, name) ∈ (order.entries p.table).filterMap Pass.missing? ↔
      l.labels.lookup name = none ∧ l.firstUse name = some number := by
  rw [List.mem_filterMap]
  constructor
  · rintro ⟨⟨n, m⟩, hmem, hmissing⟩
    have hm : p.table.lookup n = some m := AList.mem_lookup_iff.mpr ((order.perm _).mem_iff.mp hmem)
    obtain ⟨-, hdefined, huse⟩ := h.table.known n m hm
    unfold Pass.missing? at hmissing
    split at hmissing
    next => cases hmissing
    next hnot =>
      obtain ⟨k, hk, heq⟩ := Option.map_eq_some_iff.mp hmissing
      obtain ⟨rfl, rfl⟩ := Prod.mk.inj (toLex_inj.mp heq)
      rw [hdefined, Option.not_isSome_iff_eq_none] at hnot
      exact ⟨hnot, huse ▸ hk⟩
  · rintro ⟨hlookup, huse⟩
    cases hm : p.table.lookup name with
    | none =>
      rw [(h.table.unknown name hm).2] at huse
      cases huse
    | some m =>
      obtain ⟨-, hdefined, hfirst⟩ := h.table.known name m hm
      refine ⟨⟨name, m⟩, (order.perm _).mem_iff.mpr (AList.mem_lookup_iff.mp hm), ?_⟩
      simp [Pass.missing?, hdefined, hlookup, hfirst, huse]

/-- Lines of statements increase, so the first undefined reference is the least one, in whatever
order the names are listed. -/
theorem checkDefined_eq (h : p.Tracks l xs)
    (hsorted : l.statements.Pairwise fun q r => q.line < r.line) (order : TableOrder) :
    p.checkDefined order = l.checkDefined := by
  rw [Layout.checkDefined_eq, Pass.checkDefined]
  cases hfind : l.statements.findSome? l.undefined? with
  | none =>
    have hempty : (order.entries p.table).filterMap Pass.missing? = [] := by
      rw [List.eq_nil_iff_forall_not_mem]
      intro use huse
      obtain ⟨hlookup, hfirst⟩ := (h.mem_missing_iff order).mp (toLex_ofLex use ▸ huse)
      obtain ⟨q, hq, htarget, hline⟩ := Layout.exists_of_firstUse hfirst
      have hnone := List.findSome?_eq_none_iff.mp hfind q hq
      rw [Layout.undefined?_eq_some_iff.mpr ⟨htarget, hlookup, hline⟩] at hnone
      cases hnone
    rw [hempty]
    rfl
  | some use =>
    obtain ⟨number, name⟩ := use
    obtain ⟨q, hq, hreport, hleast⟩ :=
      (findSome?_eq_some_iff_firstReport.mp hfind).least hsorted
    obtain ⟨htarget, hlookup, rfl⟩ := Layout.undefined?_eq_some_iff.mp hreport
    have hmin : ((order.entries p.table).filterMap Pass.missing?).min? =
        some (toLex (q.line, name)) := by
      rw [List.min?_eq_some_iff]
      constructor
      · obtain ⟨number, hfirst⟩ : ∃ k, FirstReport
            (fun q k => q.stmt.target? = some name ∧ q.line = k) l.statements k :=
          exists_firstReport_iff.mpr ⟨q, hq, q.line, htarget, rfl⟩
        obtain ⟨r, hr, ⟨htarget', rfl⟩, hfront⟩ := hfirst.least hsorted
        have hundefined := Layout.undefined?_eq_some_iff.mpr ⟨htarget', hlookup, rfl⟩
        have hsame : r.line = q.line := by
          rcases hleast r hr _ hundefined with rfl | hlt
          · rfl
          · rcases hfront q hq q.line ⟨htarget, rfl⟩ with rfl | hlt'
            · rfl
            · exact absurd hlt (Nat.lt_asymm hlt')
        rw [← hsame]
        exact (h.mem_missing_iff order).mpr ⟨hlookup, Layout.firstUse_eq_some_iff.mpr hfirst⟩
      · intro use huse
        obtain ⟨hfree, hfirst⟩ := (h.mem_missing_iff order).mp (toLex_ofLex use ▸ huse)
        obtain ⟨r, hr, htarget', hline⟩ := Layout.exists_of_firstUse hfirst
        have hundefined := Layout.undefined?_eq_some_iff.mpr ⟨htarget', hfree, hline⟩
        rcases hleast r hr _ hundefined with rfl | hlt
        · rw [Option.some.inj (htarget.symm.trans htarget'), hline]
          exact le_refl _
        · rw [hline] at hlt
          exact Prod.Lex.toLex_le_toLex.mpr (.inl hlt)
    rw [hmin]
    rfl

theorem resolve_eq_complete (h : p.Tracks l xs) {q : Placed} {r : Nat × Piece}
    (hpos : q.pos = r.1) (hgives : p.table.Gives q.stmt r.2)
    (hdefined : ∀ name, q.stmt.target? = some name →
      l.labels.lookup name = some (l.position name)) :
    l.resolve q = p.builder.complete r := by
  obtain ⟨number, pos, stmt⟩ := q
  obtain ⟨pos', x⟩ := r
  obtain rfl : pos = pos' := hpos
  have hresolve : ∀ {name m}, p.table.lookup name = some m → stmt.target? = some name →
      p.builder.resolve m.label = .ok (l.position name) := by
    intro name m hm htarget
    rw [Builder.resolve_eq_ok_iff, (h.table.known name m hm).1, hdefined name htarget]
  cases hgives with
  | plain => rfl
  | branch hm =>
    rw [Builder.complete_of_leads rfl, hresolve hm rfl, h.origin, Nat.zero_add]
    rfl
  | closure hm =>
    rw [Builder.complete_of_leads rfl, hresolve hm rfl, h.origin, Nat.zero_add]
    rfl
  | patch hm =>
    rw [Builder.complete_of_patches rfl, hresolve hm rfl, h.origin, Nat.zero_add]
    rfl

theorem program_eq (h : p.Tracks l xs) (hdefined : l.checkDefined = .ok ()) :
    l.program = p.builder.finish := by
  have hknown : ∀ q ∈ l.statements, ∀ name, q.stmt.target? = some name →
      l.labels.lookup name = some (l.position name) := fun q hq name htarget =>
    Layout.lookup_of_checkDefined hdefined hq htarget
  have hsame : List.Forall₂ (fun q r => l.resolve q = p.builder.complete r) l.statements
      (placedFrom 0 xs) :=
    ((List.forall₂_and_left _ _).mpr ⟨hknown, h.pieces⟩).imp fun q r hq =>
      h.resolve_eq_complete hq.2.1 hq.2.2 hq.1
  rw [h.lays.finish_eq h.encodable, Layout.program, mapM_eq_of_forall₂ hsame]
  cases hinstrs : (placedFrom 0 xs).mapM p.builder.complete with
  | error e => rfl
  | ok instrs =>
    rw [ok_bind, Except.map, Program.ofInstrs_eq_ok_iff]
    exact ⟨Builder.forall_encodable (mapM_eq_ok_iff.mp hinstrs) h.encodable, rfl⟩

end Pass.Tracks

/-- One pass over the lines gives what their layout gives, in whatever order the table of names is
listed. -/
theorem assembleInOnePass_eq (order : TableOrder) (text : String) :
    assembleInOnePass order text = assemble text := by
  unfold assembleInOnePass assemble
  rcases Pass.Tracks.empty.addSources 1 (Text.lines text) with
    ⟨e, hl, hp⟩ | ⟨l, p, xs, hl, hp, htracks⟩
  · rw [hl, hp]
    rfl
  · have hsorted : l.statements.Pairwise fun q r => q.line < r.line := by
      rcases Layout.addSources_empty (Text.lines text) with
        ⟨i, e, -, herror⟩ | ⟨-, lines, l', -, hok, hof⟩
      · rw [hl] at herror
        cases herror
      · rw [hl] at hok
        cases hok
        exact hof.sorted
    rw [hl, hp, ok_bind, ok_bind, htracks.checkDefined_eq hsorted]
    cases hdefined : l.checkDefined with
    | error e => rfl
    | ok => exact htracks.program_eq hdefined ▸ rfl

end StackVM
