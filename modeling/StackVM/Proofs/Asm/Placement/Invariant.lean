import StackVM.Proofs.Asm.Reading
import StackVM.Proofs.Code.Pieces.Filling
import Mathlib.Data.List.Nodup

/-! # Labels and the layout

A label that is defined so far has the offset of the first statement at or after its line among
those placed so far, or the offset of the next statement if none has come since. Placing more
statements keeps this.
-/
namespace StackVM

/-- The offset of the first instruction at or after a line, from the lines and the offsets of the
instructions in order; the size of the program if there is none. -/
def offsetAt (places : List (Nat × Nat)) (size line : Nat) : Nat :=
  ((places.find? (line ≤ ·.1)).map (·.2)).getD size

theorem offsetAt_of_lt {places : List (Nat × Nat)} {size line : Nat}
    (h : ∀ place ∈ places, place.1 < line) : offsetAt places size line = size := by
  have hnone : places.find? (line ≤ ·.1) = none := by
    rw [List.find?_eq_none]
    intro place hplace
    simpa using h place hplace
  simp [offsetAt, hnone]

theorem offsetAt_append {places : List (Nat × Nat)} {size line number : Nat} (h : line ≤ number)
    (size' : Nat) :
    offsetAt (places ++ [(number, size)]) size' line = offsetAt places size line := by
  unfold offsetAt
  rw [List.find?_append]
  cases places.find? (line ≤ ·.1) with
  | some place => simp
  | none => simp [h]

/-- The statements of numbered lines. -/
def stmtsOf (src : List (Line × Nat)) : List (Stmt × Nat) :=
  src.filterMap fun x => x.1.stmt.map fun stmt => (stmt, x.2)

/-- The labels that numbered lines define. -/
def labelsOf (src : List (Line × Nat)) : List (String × Nat) :=
  src.filterMap fun x => x.1.label.map fun name => (name, x.2)

namespace Layout

def places (l : Layout) : List (Nat × Nat) := l.statements.map fun q => (q.line, q.pos)

/-- The instructions of the statements, with zeros for labels. -/
def skeletons (l : Layout) : List Instr := l.statements.map fun q => q.stmt.skeleton

/-- The layout is that of these numbered lines. -/
structure Fits (l : Layout) (src : List (Line × Nat)) : Prop where
  stmts : l.statements.map (fun q => (q.stmt, q.line)) = stmtsOf src
  offsets : l.statements.map Placed.pos = offsetsFrom 0 l.skeletons
  size : l.size = (l.skeletons.flatMap Instr.bytes).length
  labels : l.labels =
    ((labelsOf src).map fun d => (d.1, offsetAt l.places l.size d.2)).reverse
  names : ((labelsOf src).map Prod.fst).Nodup

namespace Fits
variable {l l' : Layout} {src : List (Line × Nat)} {number : Nat}

theorem empty : Layout.empty.Fits [] := ⟨rfl, rfl, rfl, rfl, List.nodup_nil⟩

theorem line_mem (h : l.Fits src) {q : Placed} (hq : q ∈ l.statements) :
    ∃ x ∈ src, x.1.stmt = some q.stmt ∧ x.2 = q.line := by
  have hmem : (q.stmt, q.line) ∈ l.statements.map fun q => (q.stmt, q.line) :=
    List.mem_map_of_mem hq
  rw [h.stmts] at hmem
  obtain ⟨x, hx, hstmt⟩ := List.mem_filterMap.mp hmem
  obtain ⟨stmt, hsome, heq⟩ := Option.map_eq_some_iff.mp hstmt
  obtain ⟨rfl, hline⟩ := Prod.mk.inj heq
  exact ⟨x, hx, hsome, hline⟩

theorem lt_of_mem_places (h : l.Fits src) (hlt : ∀ x ∈ src, x.2 < number) :
    ∀ place ∈ l.places, place.1 < number := by
  intro place hplace
  obtain ⟨q, hq, rfl⟩ := List.mem_map.mp hplace
  obtain ⟨x, hx, -, hline⟩ := h.line_mem hq
  rw [← hline]
  exact hlt x hx

theorem skip (h : l.Fits src) : l.Fits (src ++ [(⟨none, none⟩, number)]) := by
  have hstmts : stmtsOf (src ++ [(⟨none, none⟩, number)]) = stmtsOf src := by simp [stmtsOf]
  have hlabels : labelsOf (src ++ [(⟨none, none⟩, number)]) = labelsOf src := by simp [labelsOf]
  constructor
  · rw [hstmts, h.stmts]
  · exact h.offsets
  · exact h.size
  · rw [hlabels, ← h.labels]
  · rw [hlabels]
    exact h.names

/-- A label is defined at the offset of the next statement. -/
theorem define {name : String} (h : l.Fits src) (hlt : ∀ x ∈ src, x.2 < number)
    (hdefine : l.define name = .ok l') : l'.Fits (src ++ [(⟨some name, none⟩, number)]) := by
  have hstmts : stmtsOf (src ++ [(⟨some name, none⟩, number)]) = stmtsOf src := by simp [stmtsOf]
  have hlabels : labelsOf (src ++ [(⟨some name, none⟩, number)]) =
      labelsOf src ++ [(name, number)] := by simp [labelsOf]
  unfold Layout.define at hdefine
  split at hdefine
  next => cases hdefine
  next hnew =>
    cases hdefine
    constructor
    · rw [hstmts]
      exact h.stmts
    · exact h.offsets
    · exact h.size
    · have hend : offsetAt l.places l.size number = l.size :=
        offsetAt_of_lt (h.lt_of_mem_places hlt)
      rw [hlabels, List.map_append, List.reverse_append]
      change (name, l.size) :: l.labels = [(name, offsetAt l.places l.size number)] ++ _
      rw [hend, h.labels]
      rfl
    · have hfree : ∀ d ∈ labelsOf src, d.1 ≠ name := by
        rintro d hd rfl
        have hold : (d.1, offsetAt l.places l.size d.2) ∈ l.labels := by
          rw [h.labels, List.mem_reverse]
          exact List.mem_map_of_mem hd
        exact hnew (List.lookup_isSome_iff.mpr ⟨_, hold, beq_self_eq_true _⟩)
      rw [hlabels, List.map_append]
      simpa [List.nodup_append, h.names] using fun a n hmem => hfree (a, n) hmem

theorem place {label : Option String} (h : l.Fits (src ++ [(⟨label, none⟩, number)]))
    (hle : ∀ x ∈ src, x.2 ≤ number) (stmt : Stmt) :
    (l.place number stmt).Fits (src ++ [(⟨label, some stmt⟩, number)]) := by
  have hstatements : (l.place number stmt).statements =
      l.statements ++ [⟨number, l.size, stmt⟩] := by simp [Layout.statements, Layout.place]
  have hskeletons : (l.place number stmt).skeletons = l.skeletons ++ [stmt.skeleton] := by
    simp [Layout.skeletons, hstatements]
  have hplaces : (l.place number stmt).places = l.places ++ [(number, l.size)] := by
    simp [Layout.places, hstatements]
  have hstmts : stmtsOf (src ++ [(⟨label, some stmt⟩, number)]) =
      stmtsOf (src ++ [(⟨label, none⟩, number)]) ++ [(stmt, number)] := by simp [stmtsOf]
  have hlabels : labelsOf (src ++ [(⟨label, some stmt⟩, number)]) =
      labelsOf (src ++ [(⟨label, none⟩, number)]) := by
    simp only [labelsOf, List.filterMap_append]
    rfl
  constructor
  · rw [hstmts, ← h.stmts]
    simp [hstatements]
  · rw [hskeletons, offsetsFrom_append, ← h.offsets, ← h.size]
    simp [hstatements]
  · rw [hskeletons]
    simp [Layout.place, Stmt.size, h.size]
  · change l.labels = _
    rw [hlabels, hplaces, h.labels]
    congr 1
    apply List.map_congr_left
    intro d hd
    obtain ⟨x, hx, hlabel⟩ := List.mem_filterMap.mp hd
    obtain ⟨name, -, rfl⟩ := Option.map_eq_some_iff.mp hlabel
    have hnumber : x.2 ≤ number := by
      rcases List.mem_append.mp hx with hx | hx
      · exact hle x hx
      · simp_all
    rw [offsetAt_append hnumber]
  · rw [hlabels]
    exact h.names

theorem addLine {line : Line} (h : l.Fits src) (hlt : ∀ x ∈ src, x.2 < number)
    (hadd : l.addLine number line = .ok l') : l'.Fits (src ++ [(line, number)]) := by
  obtain ⟨label, stmt?⟩ := line
  obtain ⟨mid, hmid, hstmt⟩ : ∃ mid : Layout, mid.Fits (src ++ [(⟨label, none⟩, number)]) ∧
      mid.addLine number ⟨none, stmt?⟩ = .ok l' := by
    cases label with
    | none => exact ⟨l, h.skip, hadd⟩
    | some name =>
      obtain ⟨mid, hdefine, hrest⟩ := bind_eq_ok_iff.mp (show (l.define name >>= _) = _ from hadd)
      exact ⟨mid, h.define hlt hdefine, hrest⟩
  cases stmt? with
  | none =>
    cases hstmt
    exact hmid
  | some stmt =>
    cases hstmt
    exact hmid.place (fun x hx => Nat.le_of_lt (hlt x hx)) stmt

/-- Lines that are laid out were scanned and parsed, and the layout is that of all of them. -/
theorem addSources {sources : List (List Char)} (h : l.Fits src)
    (hlt : ∀ x ∈ src, x.2 < number) (hadd : l.addSources number sources = .ok l') :
    ∃ tokens lines, List.Forall₂ (fun source ts => tokenize source = .ok ts) sources tokens ∧
      List.Forall₂ (fun ts line => parseLine ts = .ok line) tokens lines ∧
      l'.Fits (src ++ lines.zipIdx number) := by
  induction sources generalizing l src number with
  | nil =>
    cases hadd
    exact ⟨[], [], .nil, .nil, by simpa using h⟩
  | cons source sources ih =>
    unfold Layout.addSources at hadd
    cases hsource : l.addSource number source with
    | error fault => simp [hsource] at hadd
    | ok mid =>
      simp only [hsource] at hadd
      obtain ⟨ts, hts, hrest⟩ := bind_eq_ok_iff.mp hsource
      obtain ⟨line, hline, hmid⟩ := bind_eq_ok_iff.mp hrest
      have hlt' : ∀ x ∈ src ++ [(line, number)], x.2 < number + 1 := by
        intro x hx
        rcases List.mem_append.mp hx with hx | hx
        · exact Nat.lt_succ_of_lt (hlt x hx)
        · simp_all
      obtain ⟨tokens, lines, htokens, hlines, hfits⟩ := ih (h.addLine hlt hmid) hlt' hadd
      refine ⟨ts :: tokens, line :: lines, .cons hts htokens, .cons hline hlines, ?_⟩
      simpa using hfits

theorem lookup (h : l.Fits src) {name : String} {offset : Nat}
    (hlookup : l.labels.lookup name = some offset) :
    ∃ number, (name, number) ∈ labelsOf src ∧ offset = offsetAt l.places l.size number := by
  obtain ⟨l₁, l₂, hsplit, -⟩ := List.lookup_eq_some_iff.mp hlookup
  have hmem : (name, offset) ∈ l.labels := by simp [hsplit]
  rw [h.labels, List.mem_reverse] at hmem
  obtain ⟨⟨name', number⟩, hd, heq⟩ := List.mem_map.mp hmem
  cases heq
  exact ⟨number, hd, rfl⟩

end Fits

theorem lookup_of_checkDefined {l : Layout} (h : l.checkDefined = .ok ()) {q : Placed}
    (hq : q ∈ l.statements) {name : String} (hname : q.stmt.target? = some name) :
    l.labels.lookup name = some (l.position name) := by
  unfold checkDefined at h
  dsimp only at h
  split at h
  next => cases h
  next hnone =>
    have hdefined := List.findSome?_eq_none_iff.mp hnone q hq
    rw [hname] at hdefined
    cases hlookup : l.labels.lookup name with
    | none => simp [hlookup] at hdefined
    | some offset => simp [position, hlookup]

end Layout

end StackVM
