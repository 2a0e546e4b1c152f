import StackVM.Proofs.Asm.OnePass.Table

/-! # The pass beside the layout

The pass keeps in step with the layout of the lines: it has asked the builder for the pieces that
the layout has placed, with the labels that the table gives to the names.
-/
namespace StackVM

/-- A statement as a piece, with the labels of a table for its names. -/
inductive LabelTable.Gives (t : LabelTable) : Stmt → Piece → Prop
  | plain {i : Instr} : Gives t (.plain i) (.plain i)
  | branch {kind : Branch} {name : String} {m : Mention} : t.lookup name = some m →
      Gives t (.branch kind name) (.branch kind m.label)
  | closure {name : String} {params slots : UInt8} {m : Mention} : t.lookup name = some m →
      Gives t (.closure name params slots) (.closure m.label params slots)
  | patch {name : String} {m : Mention} : t.lookup name = some m →
      Gives t (.patch name) (.patch m.label)

/-- The second table has the names of the first one, with the same labels. -/
def LabelTable.Extends (t t' : LabelTable) : Prop :=
  ∀ name m, t.lookup name = some m → ∃ m', t'.lookup name = some m' ∧ m'.label = m.label

theorem LabelTable.Gives.mono {t t' : LabelTable} {stmt : Stmt} {x : Piece}
    (h : t.Gives stmt x) (hext : t.Extends t') : t'.Gives stmt x := by
  cases h with
  | plain => exact .plain
  | branch hm | closure hm | patch hm =>
    obtain ⟨m', hm', hlabel⟩ := hext _ _ hm
    rw [← hlabel]
    constructor
    exact hm'

/-- The line that refers to a name first. -/
def Layout.firstUse (l : Layout) (name : String) : Option Nat :=
  l.statements.findSome? fun q => if q.stmt.target? = some name then some q.line else none

/-- The pass has the same pieces, labels and uses of names as the layout. -/
structure Pass.Tracks (p : Pass) (l : Layout) (xs : List Piece) : Prop where
  lays : p.builder.Lays xs
  origin : p.builder.origin = 0
  encodable : ∀ x ∈ xs, x.skeleton.Encodable
  size : l.size = sizeOfPieces xs
  pieces : List.Forall₂ (fun q r => q.pos = r.1 ∧ p.table.Gives q.stmt r.2) l.statements
    (placedFrom 0 xs)
  table : p.table.Knows p.builder.labels (fun name => l.labels.lookup name) l.firstUse

theorem LabelTable.Gives.skeleton_eq {t : LabelTable} {stmt : Stmt} {x : Piece}
    (h : t.Gives stmt x) : x.skeleton = stmt.skeleton := by
  cases h <;> rfl

theorem LabelTable.extends_insert {t : LabelTable} {name : String} {m : Mention}
    (h : ∀ k, t.lookup name = some k → m.label = k.label) : t.Extends (t.insert name m) := by
  intro n k hk
  by_cases hname : n = name
  · subst hname
    exact ⟨m, AList.lookup_insert t, h k hk⟩
  · exact ⟨k, by rw [AList.lookup_insert_ne hname, hk], rfl⟩

theorem Layout.firstUse_place (l : Layout) (number : Nat) (stmt : Stmt) (name : String) :
    (l.place number stmt).firstUse name =
      (l.firstUse name).or (if stmt.target? = some name then some number else none) := by
  have hstatements : (l.place number stmt).statements =
      l.statements ++ [⟨number, l.size, stmt⟩] := by
    simp [Layout.statements, Layout.place]
  rw [firstUse, hstatements, List.findSome?_append, List.findSome?_singleton, firstUse]

namespace Pass.Tracks
variable {p : Pass} {l : Layout} {xs : List Piece} {name : String}

theorem empty : Pass.empty.Tracks Layout.empty [] where
  lays := ⟨rfl, fun _ => rfl, fun _ => rfl⟩
  origin := rfl
  encodable := by simp
  size := rfl
  pieces := .nil
  table := by
    refine ⟨?_, ?_, ?_⟩
    · simp [Pass.empty]
    · intro name _
      exact ⟨rfl, rfl⟩
    · simp [Pass.empty]

theorem mention (h : p.Tracks l xs) (name : String) :
    (p.mention name).2.Tracks l xs ∧
      (p.mention name).2.table.lookup name = some (p.mention name).1 := by
  unfold Pass.mention
  cases hm : p.table.lookup name with
  | some m => exact ⟨h, hm⟩
  | none =>
    have hext : p.table.Extends
        (p.table.insert name ⟨⟨p.builder.labels.size⟩, false, none⟩) :=
      LabelTable.extends_insert (by simp [hm])
    refine ⟨⟨⟨h.lays.error, h.lays.bytes, h.lays.fixups⟩, h.origin, h.encodable, h.size, ?_,
      h.table.insert_new hm⟩, AList.lookup_insert _⟩
    exact h.pieces.imp fun q r hq => ⟨hq.1, hq.2.mono hext⟩

theorem define_duplicate (h : p.Tracks l xs) (hdefined : (l.labels.lookup name).isSome) :
    p.define name = .error (.duplicateLabel name) := by
  obtain ⟨hmid, hm⟩ := h.mention name
  have hflag := (hmid.table.known name _ hm).2.1
  simp [Pass.define, hflag, hdefined]

theorem offset_eq (h : p.Tracks l xs) : p.builder.offset = l.size := by
  rw [Builder.offset, h.origin, h.lays.size h.encodable, h.size, Nat.zero_add]

theorem define (h : p.Tracks l xs) (hnew : l.labels.lookup name = none) :
    ∃ p', p.define name = .ok p' ∧
      p'.Tracks { l with labels := (name, l.size) :: l.labels } xs := by
  obtain ⟨hmid, hm⟩ := h.mention name
  have hflag := (hmid.table.known name _ hm).2.1
  have hdefine : p.define name = .ok
      ⟨(p.mention name).2.builder.bind (p.mention name).1.label,
        (p.mention name).2.table.insert name { (p.mention name).1 with defined := true }⟩ := by
    simp [Pass.define, hflag, hnew]
  refine ⟨_, hdefine, ?_⟩
  generalize (p.mention name).1 = m at hm
  generalize (p.mention name).2 = p' at hmid hm
  have hext : p'.table.Extends (p'.table.insert name { m with defined := true }) :=
    LabelTable.extends_insert fun k hk => by rw [Option.some.inj (hm.symm.trans hk)]
  have hbound : Function.update (fun n => l.labels.lookup n) name (some p'.builder.offset) =
      fun n => ((name, l.size) :: l.labels).lookup n := by
    funext n
    by_cases hname : n = name
    · simp [hname, hmid.offset_eq]
    · have hbeq : (n == name) = false := by simpa using hname
      simp [hname, List.lookup_cons, hbeq]
  have htable := hmid.table.insert_defined hm p'.builder.offset
  rw [hbound] at htable
  refine ⟨⟨hmid.lays.error, hmid.lays.bytes, hmid.lays.fixups⟩, hmid.origin, hmid.encodable,
    hmid.size, ?_, htable⟩
  exact hmid.pieces.imp fun q r hq => ⟨hq.1, hq.2.mono hext⟩

theorem place {t : LabelTable} {b : Builder} {x : Piece} {stmt : Stmt} {number : Nat}
    (h : p.Tracks l xs) (hgives : t.Gives stmt x) (hadd : p.builder.Added x b)
    (hstmt : stmt.skeleton.Encodable) (hext : p.table.Extends t)
    (htable : t.Knows p.builder.labels (fun name => l.labels.lookup name)
      (l.place number stmt).firstUse) :
    (⟨b, t⟩ : Pass).Tracks (l.place number stmt) (xs ++ [x]) := by
  have hstatements : (l.place number stmt).statements =
      l.statements ++ [⟨number, l.size, stmt⟩] := by
    simp [Layout.statements, Layout.place]
  refine ⟨h.lays.added hadd, hadd.origin.trans h.origin, ?_, ?_, ?_, ?_⟩
  · intro y hy
    rcases List.mem_append.mp hy with hy | hy
    · exact h.encodable y hy
    · rw [List.mem_singleton.mp hy, hgives.skeleton_eq]
      exact hstmt
  · have hsize : x.size = stmt.size := congrArg Instr.size hgives.skeleton_eq
    simp [Layout.place, sizeOfPieces, h.size, hsize]
  · rw [hstatements, placedFrom_append]
    refine List.rel_append (h.pieces.imp fun q r hq => ⟨hq.1, hq.2.mono hext⟩) (.cons ?_ .nil)
    exact ⟨by rw [h.size, Nat.zero_add], hgives⟩
  · rw [hadd.labels]
    exact htable

theorem refer (h : p.Tracks l xs) (number : Nat) (stmt : Stmt)
    (htarget : stmt.target? = some name) :
    ∃ (p' : Pass) (m : Mention) (t : LabelTable),
      p.refer number name = (m.label, ⟨p'.builder, t⟩) ∧ p'.Tracks l xs ∧
      t.lookup name = some m ∧ p'.table.Extends t ∧
      t.Knows p'.builder.labels (fun name => l.labels.lookup name)
        (l.place number stmt).firstUse := by
  obtain ⟨hmid, hm⟩ := h.mention name
  have huses : Function.update l.firstUse name ((l.firstUse name).or (some number)) =
      (l.place number stmt).firstUse := by
    funext n
    rw [Layout.firstUse_place, htarget]
    by_cases hname : n = name
    · simp [hname]
    · simp [hname, Ne.symm hname]
  have htable := hmid.table.insert_used hm number
  rw [huses] at htable
  have hext : (p.mention name).2.table.Extends ((p.mention name).2.table.insert name
      { (p.mention name).1 with firstUse := (p.mention name).1.firstUse.or (some number) }) :=
    LabelTable.extends_insert fun k hk => by rw [Option.some.inj (hm.symm.trans hk)]
  exact ⟨(p.mention name).2,
    { (p.mention name).1 with firstUse := (p.mention name).1.firstUse.or (some number) }, _, rfl,
    hmid, AList.lookup_insert _, hext, htable⟩

theorem addStmt (h : p.Tracks l xs) {stmt : Stmt} (hstmt : stmt.skeleton.Encodable)
    (number : Nat) : ∃ x, (p.addStmt number stmt).Tracks (l.place number stmt) (xs ++ [x]) := by
  cases stmt with
  | plain i =>
    have huses : l.firstUse = (l.place number (.plain i)).firstUse := by
      funext n
      simp [Layout.firstUse_place, Stmt.target?]
    exact ⟨.plain i, h.place .plain (p.builder.added_emit i) hstmt
      (fun _ m hm => ⟨m, hm, rfl⟩) (huses ▸ h.table)⟩
  | branch kind name =>
    obtain ⟨p', m, t, hrefer, hp', hm, hext, htable⟩ := h.refer number (.branch kind name) rfl
    refine ⟨.branch kind m.label, ?_⟩
    simp only [Pass.addStmt, hrefer]
    exact hp'.place (.branch hm) (p'.builder.added_jump kind m.label) hstmt hext htable
  | closure name params slots =>
    obtain ⟨p', m, t, hrefer, hp', hm, hext, htable⟩ :=
      h.refer number (.closure name params slots) rfl
    refine ⟨.closure m.label params slots, ?_⟩
    simp only [Pass.addStmt, hrefer]
    exact hp'.place (.closure hm) (p'.builder.added_closure m.label params slots) hstmt hext htable
  | patch name =>
    obtain ⟨p', m, t, hrefer, hp', hm, hext, htable⟩ := h.refer number (.patch name) rfl
    refine ⟨.patch m.label, ?_⟩
    simp only [Pass.addStmt, hrefer]
    exact hp'.place (.patch hm) (p'.builder.added_patch m.label) hstmt hext htable

theorem addLine (h : p.Tracks l xs) {line : Line}
    (hstmt : ∀ stmt, line.stmt = some stmt → stmt.skeleton.Encodable) (number : Nat) :
    (∃ e, l.addLine number line = .error e ∧ p.addLine number line = .error e) ∨
      ∃ l' p' ys, l.addLine number line = .ok l' ∧ p.addLine number line = .ok p' ∧
        p'.Tracks l' ys := by
  obtain ⟨label, stmt?⟩ := line
  have hplace : ∀ {l : Layout} {p : Pass}, p.Tracks l xs → ∃ l' p' ys,
      l.addLine number ⟨none, stmt?⟩ = .ok l' ∧ p.addLine number ⟨none, stmt?⟩ = .ok p' ∧
        p'.Tracks l' ys := by
    intro l p h
    cases stmt? with
    | none => exact ⟨l, p, xs, rfl, rfl, h⟩
    | some stmt =>
      obtain ⟨x, hx⟩ := h.addStmt (hstmt stmt rfl) number
      exact ⟨_, _, _, rfl, rfl, hx⟩
  cases label with
  | none => exact .inr (hplace h)
  | some name =>
    cases hlookup : l.labels.lookup name with
    | some pos =>
      have hdefine : l.define name = .error (.duplicateLabel name) := if_pos (by simp [hlookup])
      have hpass : p.define name = .error (.duplicateLabel name) :=
        h.define_duplicate (by simp [hlookup])
      exact .inl ⟨.duplicateLabel name, by simp only [Layout.addLine, hdefine, error_bind],
        by simp only [Pass.addLine, hpass, error_bind]⟩
    | none =>
      have hdefine : l.define name = .ok { l with labels := (name, l.size) :: l.labels } :=
        if_neg (by simp [hlookup])
      obtain ⟨p', hpass, hp'⟩ := h.define hlookup
      simp only [Layout.addLine, Pass.addLine, hdefine, hpass, ok_bind]
      exact .inr (hplace hp')

theorem addSources (h : p.Tracks l xs) (number : Nat) (sources : List (List Char)) :
    (∃ e, l.addSources number sources = .error e ∧ p.addSources number sources = .error e) ∨
      ∃ l' p' ys, l.addSources number sources = .ok l' ∧ p.addSources number sources = .ok p' ∧
        p'.Tracks l' ys := by
  induction sources generalizing p l xs number with
  | nil => exact .inr ⟨l, p, xs, rfl, rfl, h⟩
  | cons source rest ih =>
    have hsource : l.addSource number source = readLine source >>= l.addLine number := by
      unfold Layout.addSource readLine
      cases tokenize source <;> rfl
    rw [Layout.addSources, Pass.addSources, hsource]
    cases hread : readLine source with
    | error e => exact .inl ⟨_, rfl, rfl⟩
    | ok line =>
      simp only [ok_bind]
      rcases h.addLine (fun stmt hstmt => encodable_of_readLine hread hstmt) number with
        ⟨e, hl, hp⟩ | ⟨l', p', ys, hl, hp, htracks⟩
      · rw [hl, hp]
        exact .inl ⟨_, rfl, rfl⟩
      · rw [hl, hp]
        exact ih htracks (number + 1)

end Pass.Tracks

end StackVM
