import Mathlib.Data.List.AList
import Mathlib.Data.Prod.Lex
import Mathlib.Data.String.Basic
import StackVM.Proofs.Asm.Lines
import StackVM.Proofs.Asm.Placement.Rows
import StackVM.Proofs.Code.Building.Finishing

/-! # The table of names

A text can be assembled while it is read, by a builder and a table of the names met so far: a name
gets a label of the builder when it is first met, as a definition or as a reference, and the table
remembers whether it is defined and where it was first referred to. Undefined names are looked for
in the table at the end, in whatever order it lists its entries.
-/
namespace StackVM

/-- What a pass knows of a name. -/
structure Mention where
  label : Label
  defined : Bool
  firstUse : Option Nat

/-- The names met so far. -/
abbrev LabelTable := AList fun _ : String => Mention

/-- An order in which the entries of a table are listed. -/
structure TableOrder where
  entries : LabelTable → List (Sigma fun _ : String => Mention)
  perm : ∀ t, (entries t).Perm t.entries

instance : Inhabited TableOrder := ⟨⟨AList.entries, fun _ => .refl _⟩⟩

structure Pass where
  builder : Builder
  table : LabelTable

namespace Pass

def empty : Pass := ⟨.new 0, ∅⟩

/-- The entry of a name, made with a new label if it is met for the first time. -/
def mention (p : Pass) (name : String) : Mention × Pass :=
  match p.table.lookup name with
  | some m => (m, p)
  | none =>
    let (l, b) := p.builder.label
    (⟨l, false, none⟩, ⟨b, p.table.insert name ⟨l, false, none⟩⟩)

def define (p : Pass) (name : String) : Except LineFault Pass :=
  let (m, p) := p.mention name
  if m.defined then .error (.duplicateLabel name)
  else .ok ⟨p.builder.bind m.label, p.table.insert name { m with defined := true }⟩

/-- The label of a name that a line refers to. -/
def refer (p : Pass) (number : Nat) (name : String) : Label × Pass :=
  let (m, p) := p.mention name
  (m.label,
    { p with table := p.table.insert name { m with firstUse := m.firstUse.or (some number) } })

def addStmt (p : Pass) (number : Nat) : Stmt → Pass
  | .plain i => { p with builder := p.builder.emit i }
  | .branch kind name =>
    let (l, p) := p.refer number name
    { p with builder := p.builder.jump kind l }
  | .closure name params slots =>
    let (l, p) := p.refer number name
    { p with builder := p.builder.closure l params slots }
  | .patch name =>
    let (l, p) := p.refer number name
    { p with builder := p.builder.patch l }

def addLine (p : Pass) (number : Nat) (line : Line) : Except LineFault Pass := do
  let p ← match line.label with
    | some name => p.define name
    | none => pure p
  match line.stmt with
  | some stmt => return p.addStmt number stmt
  | none => return p

def addSources (p : Pass) (number : Nat) : List (List Char) → Except AsmError Pass
  | [] => .ok p
  | source :: rest =>
    match readLine source >>= p.addLine number with
    | .error fault => .error (.inLine number fault)
    | .ok p => p.addSources (number + 1) rest

/-- The first use of a name that is not defined. -/
def missing? (entry : Sigma fun _ : String => Mention) : Option (Nat ×ₗ String) :=
  if entry.2.defined then none else entry.2.firstUse.map fun number => toLex (number, entry.1)

/-- The least of the first uses of undefined names is reported. -/
def checkDefined (order : TableOrder) (p : Pass) : Except AsmError Unit :=
  match ((order.entries p.table).filterMap missing?).min? with
  | some use => .error (.inLine (ofLex use).1 (.undefinedLabel (ofLex use).2))
  | none => .ok ()

end Pass

/-- The program that an assembly text describes, from one pass over its lines. -/
def assembleInOnePass (order : TableOrder) (text : String) : Except AsmError Program := do
  let pass ← Pass.empty.addSources 1 (Text.lines text)
  pass.checkDefined order
  match pass.builder.finish with
  | .ok program => .ok program
  | .error e => .error (.layout e)

/-- The table knows where names are bound and where they are first used, and gives each a label of
its own. -/
structure LabelTable.Knows (t : LabelTable) (labels : Array (Option Nat))
    (bound uses : String → Option Nat) : Prop where
  known : ∀ name m, t.lookup name = some m → labels[m.label.index]? = some (bound name) ∧
    m.defined = (bound name).isSome ∧ m.firstUse = uses name
  unknown : ∀ name, t.lookup name = none → bound name = none ∧ uses name = none
  apart : ∀ name name' m m', t.lookup name = some m → t.lookup name' = some m' →
    m.label = m'.label → name = name'

namespace LabelTable.Knows
variable {t : LabelTable} {labels : Array (Option Nat)} {bound uses : String → Option Nat}
  {name : String} {m : Mention}

theorem lt_size (h : t.Knows labels bound uses) (hm : t.lookup name = some m) :
    m.label.index < labels.size :=
  (Array.getElem?_eq_some_iff.mp (h.known name m hm).1).1

theorem lookup_insert_cases {name' : String} {m' : Mention}
    (h : (t.insert name m).lookup name' = some m') :
    name' = name ∧ m' = m ∨ name' ≠ name ∧ t.lookup name' = some m' := by
  by_cases hname : name' = name
  · subst hname
    rw [AList.lookup_insert] at h
    exact .inl ⟨rfl, (Option.some.inj h).symm⟩
  · rw [AList.lookup_insert_ne hname] at h
    exact .inr ⟨hname, h⟩

theorem apart_insert (h : t.Knows labels bound uses)
    (hlabel : ∀ n m', t.lookup n = some m' → m'.label = m.label → n = name) (n n' : String)
    (k k' : Mention) (hk : (t.insert name m).lookup n = some k)
    (hk' : (t.insert name m).lookup n' = some k') (heq : k.label = k'.label) : n = n' := by
  rcases lookup_insert_cases hk with ⟨rfl, rfl⟩ | ⟨-, hold⟩
  · rcases lookup_insert_cases hk' with ⟨rfl, -⟩ | ⟨-, hold'⟩
    · rfl
    · exact (hlabel n' k' hold' heq.symm).symm
  · rcases lookup_insert_cases hk' with ⟨rfl, rfl⟩ | ⟨-, hold'⟩
    · exact hlabel n k hold heq
    · exact h.apart n n' k k' hold hold' heq

theorem insert_new (h : t.Knows labels bound uses) (hnew : t.lookup name = none) :
    LabelTable.Knows (t.insert name ⟨⟨labels.size⟩, false, none⟩) (labels.push none) bound
      uses := by
  obtain ⟨hbound, huses⟩ := h.unknown name hnew
  refine ⟨fun n k hk => ?_, fun n hn => ?_, h.apart_insert fun n k hk heq => ?_⟩
  · rcases lookup_insert_cases hk with ⟨rfl, rfl⟩ | ⟨-, hold⟩
    · simp [hbound, huses]
    · have hlt := h.lt_size hold
      rw [Array.getElem?_push, if_neg (Nat.ne_of_lt hlt)]
      exact h.known n k hold
  · exact h.unknown n (AList.lookup_insert_eq_none.mp hn).2
  · have hlt := h.lt_size hk
    rw [heq] at hlt
    exact absurd hlt (Nat.lt_irrefl _)

theorem insert_defined (h : t.Knows labels bound uses) (hm : t.lookup name = some m) (pos : Nat) :
    LabelTable.Knows (t.insert name { m with defined := true })
      (labels.setIfInBounds m.label.index (some pos)) (Function.update bound name (some pos))
      uses := by
  refine ⟨fun n k hk => ?_, fun n hn => ?_, h.apart_insert fun n k hk heq => ?_⟩
  · rcases lookup_insert_cases hk with ⟨rfl, rfl⟩ | ⟨hne, hold⟩
    · simp [h.lt_size hm, (h.known n m hm).2.2]
    · have hindex : m.label.index ≠ k.label.index := by
        intro heq
        exact hne (h.apart n name k m hold hm (congrArg Label.mk heq.symm))
      rw [Array.getElem?_setIfInBounds_ne hindex, Function.update_of_ne hne]
      exact h.known n k hold
  · obtain ⟨hne, hnone⟩ := AList.lookup_insert_eq_none.mp hn
    rw [Function.update_of_ne hne]
    exact h.unknown n hnone
  · exact h.apart n name k m hk hm heq

theorem insert_used (h : t.Knows labels bound uses) (hm : t.lookup name = some m) (number : Nat) :
    LabelTable.Knows (t.insert name { m with firstUse := m.firstUse.or (some number) }) labels
      bound (Function.update uses name ((uses name).or (some number))) := by
  refine ⟨fun n k hk => ?_, fun n hn => ?_, h.apart_insert fun n k hk heq => ?_⟩
  · rcases lookup_insert_cases hk with ⟨rfl, rfl⟩ | ⟨hne, hold⟩
    · obtain ⟨hlabel, hdefined, huse⟩ := h.known n m hm
      exact ⟨hlabel, hdefined, by rw [Function.update_self, ← huse]⟩
    · rw [Function.update_of_ne hne]
      exact h.known n k hold
  · obtain ⟨hne, hnone⟩ := AList.lookup_insert_eq_none.mp hn
    rw [Function.update_of_ne hne]
    exact h.unknown n hnone
  · exact h.apart n name k m hk hm heq

end LabelTable.Knows

end StackVM
