import Mathlib.Algebra.GroupWithZero.Nat
import StackVM.Code.Builder
import StackVM.Proofs.Code.Listing
import StackVM.Proofs.Code.Sequence

/-! # Pieces of code with labels

A piece is an instruction with all its operands, or one with a label in the place of a distance or
an address. Laid out one after another with zeros for labels, pieces are bytes and a list of
operands to fill in, each one byte into its piece.
-/
namespace StackVM

/-- The distance from the next instruction to the target fits sixteen signed bits. -/
def InReach (next target : Nat) : Prop :=
  -32768 ≤ (target : Int) - next ∧ (target : Int) - next ≤ 32767

theorem distanceTo_eq_ok_iff {next target : Nat} {d : Int16} :
    distanceTo next target = .ok d ↔ relativeTarget? next d = some target := by
  have hlow : -32768 ≤ d.toInt := d.le_toInt
  have hhigh : d.toInt ≤ 32767 := Int.le_of_lt_add_one d.toInt_lt
  simp only [distanceTo, relativeTarget?]
  constructor
  · intro h
    split at h
    next hrange =>
      cases h
      rw [Int16.toInt_ofInt_of_le hrange.1 (by omega)]
      have htarget : (next : Int) + ((target : Int) - next) = target := by omega
      simp [htarget]
    next => cases h
  · intro h
    split at h
    next hle =>
      cases h
      have hdelta : (((next : Int) + d.toInt).toNat : Int) - next = d.toInt := by omega
      rw [hdelta, if_pos ⟨hlow, hhigh⟩, Int16.ofInt_toInt]
    next => cases h

theorem distanceTo_eq_error_iff {next target : Nat} {e : CodeError} :
    distanceTo next target = .error e ↔
      ¬ InReach next target ∧ e = .offsetOutOfRange next target := by
  simp only [distanceTo, InReach]
  split <;> simp_all [eq_comm]

theorem operandAddress_eq_ok_iff {source site : Nat} {address : UInt16} :
    operandAddress source site = .ok address ↔ address.toNat = site + 1 := by
  have hlt : address.toNat < 65536 := address.toNat_lt
  unfold operandAddress
  constructor
  · intro h
    split at h
    next hsite =>
      cases h
      exact UInt16.toNat_ofNat_of_lt' hsite
    next => cases h
  · intro h
    rw [if_pos (by omega), ← h, UInt16.ofNat_toNat]

theorem operandAddress_eq_error_iff {source site : Nat} {e : CodeError} :
    operandAddress source site = .error e ↔
      65536 ≤ site + 1 ∧ e = .offsetOutOfRange source (site + 1) := by
  unfold operandAddress
  split <;> simp_all [eq_comm]; omega

theorem Branch.size_instr (kind : Branch) (d : Int16) : (kind.instr d).size = 3 := by
  cases kind <;> rfl

/-- An instruction as it is asked for: with all its operands, or with a label in the place of a
distance or an address. -/
inductive Piece
  | plain (instr : Instr)
  | branch (kind : Branch) (target : Label)
  | closure (entry : Label) (params slots : UInt8)
  | patch (site : Label)
  deriving DecidableEq

namespace Piece

/-- The instruction with a zero in place of a label. -/
def skeleton : Piece → Instr
  | .plain i => i
  | .branch kind _ => kind.instr 0
  | .closure _ params slots => ⟨.makeClosure, ⟨0, params, slots⟩⟩
  | .patch _ => ⟨.patch, (0 : UInt16)⟩

def size (x : Piece) : Nat := x.skeleton.size

/-- The label that the distance of the instruction leads to. -/
def leads? : Piece → Option Label
  | .branch _ l => some l
  | .closure l _ _ => some l
  | _ => none

/-- The label of the instruction whose operand the instruction patches. -/
def patches? : Piece → Option Label
  | .patch l => some l
  | _ => none

/-- Every label of the piece at an offset is bound, and its position fits the operand. -/
def Fits (bound : Label → Nat → Prop) (pos : Nat) (x : Piece) : Prop :=
  (∀ l, x.leads? = some l → ∃ t, bound l t ∧ InReach (pos + x.size) t) ∧
  ∀ l, x.patches? = some l → ∃ t, bound l t ∧ t + 1 < 65536

/-- Why the piece at an offset cannot become an instruction. -/
inductive Fails (bound : Label → Nat → Prop) (pos : Nat) (x : Piece) : CodeError → Prop
  | unbound {l : Label} : x.leads? = some l ∨ x.patches? = some l → (∀ t, ¬ bound l t) →
      Fails bound pos x (.unboundLabel l.index)
  | far {l : Label} {t : Nat} : x.leads? = some l → bound l t → ¬ InReach (pos + x.size) t →
      Fails bound pos x (.offsetOutOfRange (pos + x.size) t)
  | high {l : Label} {t : Nat} : x.patches? = some l → bound l t → 65536 ≤ t + 1 →
      Fails bound pos x (.offsetOutOfRange (pos + 1) (t + 1))

/-- The instruction that the piece at an offset becomes: literal operands stay, a distance leads
from the next instruction to the label, and an address is that of the operand at the label. -/
inductive Becomes (bound : Label → Nat → Prop) (pos : Nat) : Piece → Instr → Prop
  | plain {i : Instr} : Becomes bound pos (.plain i) i
  | branch {kind : Branch} {l : Label} {t : Nat} {d : Int16} : bound l t →
      relativeTarget? (pos + (kind.instr d).size) d = some t →
      Becomes bound pos (.branch kind l) (kind.instr d)
  | closure {l : Label} {t : Nat} {d : Int16} {params slots : UInt8} : bound l t →
      relativeTarget? (pos + Instr.size ⟨.makeClosure, ⟨d, params, slots⟩⟩) d = some t →
      Becomes bound pos (.closure l params slots) ⟨.makeClosure, ⟨d, params, slots⟩⟩
  | patch {l : Label} {t : Nat} {address : UInt16} : bound l t → address.toNat = t + 1 →
      Becomes bound pos (.patch l) ⟨.patch, address⟩

/-- The piece is a text literal of this size, which is more than fits. -/
def TooLong (x : Piece) (size : Nat) : Prop :=
  ∃ t : String, x = .plain ⟨.pushText, t⟩ ∧ size = t.utf8ByteSize ∧ 255 < size

theorem plain_or_refers (x : Piece) :
    (∃ i, x = .plain i) ∨ (∃ l, x.leads? = some l) ∨ ∃ l, x.patches? = some l := by
  cases x with
  | plain i => exact .inl ⟨i, rfl⟩
  | branch _ l | closure l => exact .inr (.inl ⟨l, rfl⟩)
  | patch l => exact .inr (.inr ⟨l, rfl⟩)

/-- Where labels are bound at one offset at most, a piece fits unless it fails. -/
theorem fits_iff_not_fails {x : Piece} {bound : Label → Nat → Prop} {pos : Nat}
    (hone : ∀ l t u, bound l t → bound l u → t = u) :
    x.Fits bound pos ↔ ∀ e, ¬ x.Fails bound pos e := by
  constructor
  · rintro ⟨hleads, hpatches⟩ e hfails
    cases hfails with
    | unbound hl hbound =>
      rcases hl with hl | hl
      · obtain ⟨t, ht, -⟩ := hleads _ hl
        exact hbound t ht
      · obtain ⟨t, ht, -⟩ := hpatches _ hl
        exact hbound t ht
    | far hl hbound hfar =>
      obtain ⟨t, ht, hnear⟩ := hleads _ hl
      rw [hone _ _ _ hbound ht] at hfar
      exact hfar hnear
    | high hl hbound hhigh =>
      obtain ⟨t, ht, hlow⟩ := hpatches _ hl
      rw [hone _ _ _ hbound ht] at hhigh
      omega
  · intro h
    constructor
    · intro l hl
      by_cases hbound : ∃ t, bound l t
      · obtain ⟨t, ht⟩ := hbound
        exact ⟨t, ht, not_not.mp fun hfar => h _ (.far hl ht hfar)⟩
      · exact absurd (.unbound (.inl hl) (not_exists.mp hbound)) (h _)
    · intro l hl
      by_cases hbound : ∃ t, bound l t
      · obtain ⟨t, ht⟩ := hbound
        exact ⟨t, ht, Nat.not_le.mp fun hhigh => h _ (.high hl ht hhigh)⟩
      · exact absurd (.unbound (.inr hl) (not_exists.mp hbound)) (h _)

/-- Why a piece has no bytes. -/
def refusal? (x : Piece) : Option CodeError :=
  if x.skeleton.Encodable then none else some (.textTooLong (x.skeleton.size - 2))

theorem refusal?_eq_none_iff {x : Piece} : x.refusal? = none ↔ x.skeleton.Encodable := by
  unfold refusal?
  split <;> simp_all

theorem refusal?_eq_some_iff {x : Piece} {e : CodeError} :
    x.refusal? = some e ↔ ∃ size, x.TooLong size ∧ e = .textTooLong size := by
  constructor
  · intro h
    unfold refusal? at h
    split at h
    next => cases h
    next hlong =>
      cases h
      rw [Instr.encodable_iff] at hlong
      push Not at hlong
      obtain ⟨t, ht, hsize⟩ := hlong
      rw [ht]
      refine ⟨t.utf8ByteSize, ⟨t, ?_, rfl, hsize⟩, ?_⟩
      · cases x with
        | plain i => exact congrArg _ ht
        | branch kind l => cases kind <;> cases ht
        | closure | patch => cases ht
      · simp only [Instr.size, Shape.operandSize, Opcode.shape]
        congr 1
        omega
  · rintro ⟨-, ⟨t, rfl, rfl, hsize⟩, rfl⟩
    have hlong : ¬ (Piece.plain ⟨.pushText, t⟩).skeleton.Encodable := fun h =>
      absurd hsize (Nat.not_lt.mpr h)
    rw [refusal?, if_neg hlong]
    simp only [skeleton, Instr.size, Shape.operandSize, Opcode.shape]
    congr 2
    omega

theorem encodable_iff {x : Piece} : x.skeleton.Encodable ↔ ∀ size, ¬ x.TooLong size := by
  rw [← refusal?_eq_none_iff, Option.eq_none_iff_forall_ne_some]
  simp only [ne_eq, refusal?_eq_some_iff]
  constructor
  · intro h size hlong
    exact h _ ⟨size, hlong, rfl⟩
  · rintro h e ⟨size, hlong, -⟩
    exact h size hlong

/-- The operand that waits in the piece at a position of the bytes. -/
def fixup? (origin pos : Nat) (x : Piece) : Option Fixup :=
  match x with
  | .plain _ => none
  | .branch _ l | .closure l _ _ => some (.relative (pos + 1) (origin + (pos + x.size)) l)
  | .patch l => some (.address (pos + 1) l)

/-- The instruction with this operand in place of a label. -/
def withWord (x : Piece) (word : UInt16) : Instr :=
  match x with
  | .plain i => i
  | .branch kind _ => kind.instr word.toInt16
  | .closure _ params slots => ⟨.makeClosure, ⟨word.toInt16, params, slots⟩⟩
  | .patch _ => ⟨.patch, word⟩

theorem skeleton_eq_withWord (x : Piece) : x.skeleton = x.withWord 0 := by
  cases x <;> rfl

theorem exists_bytes_withWord {origin pos : Nat} {x : Piece} {f : Fixup}
    (h : x.fixup? origin pos = some f) :
    ∃ op rest, ∀ word, (x.withWord word).bytes = op :: (bytesLE 2 word.toNat ++ rest) := by
  cases x with
  | plain i => cases h
  | branch kind l =>
    refine ⟨kind.opcode.toByte, [], fun word => ?_⟩
    cases kind <;>
      simp [withWord, Branch.instr, Branch.opcode, Instr.bytes, Shape.operandBytes, Opcode.shape]
  | closure l params slots =>
    exact ⟨Opcode.makeClosure.toByte, [params, slots], fun word => by
      simp [withWord, Instr.bytes, Shape.operandBytes, Opcode.shape]⟩
  | patch l =>
    exact ⟨Opcode.patch.toByte, [], fun word => by
      simp [withWord, Instr.bytes, Shape.operandBytes, Opcode.shape]⟩

end Piece

/-- Pieces one after another from an offset on. -/
def placedFrom (pos : Nat) : List Piece → List (Nat × Piece)
  | [] => []
  | x :: rest => (pos, x) :: placedFrom (pos + x.size) rest

/-- Bytes that pieces occupy. -/
def sizeOfPieces (xs : List Piece) : Nat := (xs.map Piece.size).sum

/-- The operands that wait in pieces from a position on. -/
def fixupsFrom (origin pos : Nat) : List Piece → List Fixup
  | [] => []
  | x :: rest => (x.fixup? origin pos).toList ++ fixupsFrom origin (pos + x.size) rest

/-- The bytes of pieces with zeros for labels. -/
def skeletonBytes (xs : List Piece) : List UInt8 := xs.flatMap fun x => x.skeleton.bytes

theorem map_snd_placedFrom (pos : Nat) (xs : List Piece) :
    (placedFrom pos xs).map Prod.snd = xs := by
  induction xs generalizing pos with
  | nil => rfl
  | cons x xs ih => rw [placedFrom, List.map_cons, ih]

theorem placedFrom_append (pos : Nat) (xs : List Piece) (x : Piece) :
    placedFrom pos (xs ++ [x]) = placedFrom pos xs ++ [(pos + sizeOfPieces xs, x)] := by
  induction xs generalizing pos with
  | nil => simp [placedFrom, sizeOfPieces]
  | cons y xs ih => simp [placedFrom, ih, sizeOfPieces, Nat.add_assoc]

theorem length_skeletonBytes (xs : List Piece) : (skeletonBytes xs).length = sizeOfPieces xs := by
  simp only [skeletonBytes, List.length_flatMap, Instr.bytes_length]
  rfl

theorem fixupsFrom_append (origin pos : Nat) (xs : List Piece) (x : Piece) :
    fixupsFrom origin pos (xs ++ [x]) =
      fixupsFrom origin pos xs ++ (x.fixup? origin (pos + sizeOfPieces xs)).toList := by
  induction xs generalizing pos with
  | nil => simp [fixupsFrom, sizeOfPieces]
  | cons y xs ih =>
    have hpos : pos + y.size + sizeOfPieces xs = pos + sizeOfPieces (y :: xs) := by
      simp [sizeOfPieces, Nat.add_assoc]
    rw [List.cons_append, fixupsFrom, fixupsFrom, ih, hpos, List.append_assoc]

end StackVM
