import StackVM.Code.Program
import StackVM.Proofs.Code.Codec

/-! # Programs as listings

A program decodes front to back exactly when it is the concatenation of the encodings of a list of
instructions, and then the decoded list is that one, each instruction at the sum of the sizes
before it. `Listing` is the walk that a sweep makes, without its accumulator.
-/
namespace StackVM

/-- The instructions that follow one another from `pos` to the end of a program. -/
inductive Listing (p : Program) : Nat → List (Nat × Instr) → Prop
  | nil : Listing p p.size []
  | cons {pos next : Nat} {i : Instr} {rest : List (Nat × Instr)} :
      p.decodeAt pos = .ok (i, next) → Listing p next rest → Listing p pos ((pos, i) :: rest)

/-- The offsets of instructions that stand one after another from `pos` on. -/
def offsetsFrom (pos : Nat) : List Instr → List Nat
  | [] => []
  | i :: rest => pos :: offsetsFrom (pos + i.size) rest

namespace Listing
variable {p : Program} {pos : Nat} {l : List (Nat × Instr)}

theorem sweepFrom_eq (h : Listing p pos l) (found : List (Nat × Instr)) :
    p.sweepFrom pos found = (found.reverse ++ l, none) := by
  induction h generalizing found with
  | nil =>
    unfold Program.sweepFrom
    simp
  | cons hd _ ih =>
    unfold Program.sweepFrom
    rw [if_pos (show _ < p.size from Instr.lt_size_of_decode hd)]
    split
    next i next hd' =>
      rw [hd] at hd'
      cases hd'
      rw [ih, List.reverse_cons, List.append_assoc]
      rfl
    next e hd' =>
      rw [hd] at hd'
      cases hd'

theorem of_sweepFrom {found : List (Nat × Instr)} (hpos : pos ≤ p.size)
    (h : p.sweepFrom pos found = (l, none)) :
    ∃ rest, l = found.reverse ++ rest ∧ Listing p pos rest := by
  fun_induction Program.sweepFrom p pos found with
  | case1 pos found hlt i next hd ih =>
    obtain ⟨rest, rfl, hrest⟩ := ih (Instr.le_size_of_decode hd) h
    exact ⟨(pos, i) :: rest, by simp, .cons hd hrest⟩
  | case2 pos found hlt e hd => cases h
  | case3 pos found hge =>
    cases h
    have hend : pos = p.size := by omega
    exact ⟨[], by simp, hend ▸ .nil⟩

end Listing

namespace Program
variable {p : Program} {l : List (Nat × Instr)}

theorem decodeAll_eq_ok_iff_listing : p.decodeAll = .ok l ↔ Listing p 0 l := by
  unfold decodeAll sweep
  constructor
  · intro h
    split at h
    next instrs hs =>
      cases h
      obtain ⟨rest, hl, hrest⟩ := Listing.of_sweepFrom (Nat.zero_le _) hs
      rw [hl]
      exact hrest
    next => cases h
  · intro h
    simp [h.sweepFrom_eq []]

private theorem foldlM_encode_eq_ok_iff (acc bytes : Array UInt8) (instrs : List Instr) :
    instrs.foldlM (fun acc (i : Instr) => i.encode.map acc.appendList) acc = .ok bytes ↔
      (∀ i ∈ instrs, i.Encodable) ∧ bytes.toList = acc.toList ++ instrs.flatMap Instr.bytes := by
  induction instrs generalizing acc with
  | nil =>
    simp only [List.foldlM_nil, pure, Except.pure, Except.ok.injEq, List.not_mem_nil,
      false_implies, implies_true, true_and, List.flatMap_nil, List.append_nil]
    exact ⟨fun h => h ▸ rfl, fun h => (Array.ext' h).symm⟩
  | cons i rest ih =>
    rw [List.foldlM_cons]
    by_cases henc : i.Encodable
    · have hi : i.encode = .ok i.bytes := Instr.encode_eq_ok_iff.mpr ⟨henc, rfl⟩
      rw [hi]
      change List.foldlM _ (acc.appendList i.bytes) rest = Except.ok bytes ↔ _
      rw [ih]
      simp [henc, List.append_assoc]
    · simp [Instr.encode, henc, Except.map, bind, Except.bind]

theorem ofInstrs_eq_ok_iff {instrs : List Instr} :
    ofInstrs instrs = .ok p ↔
      (∀ i ∈ instrs, i.Encodable) ∧ p.bytes.toList = instrs.flatMap Instr.bytes := by
  unfold ofInstrs
  have hfold := foldlM_encode_eq_ok_iff #[] p.bytes instrs
  simp only [List.nil_append] at hfold
  rw [← hfold]
  cases instrs.foldlM (fun acc (i : Instr) => i.encode.map acc.appendList) #[] with
  | error e => simp [Except.map]
  | ok bytes =>
    simp only [Except.map, Except.ok.injEq]
    exact ⟨fun h => h ▸ rfl, fun h => h ▸ rfl⟩

end Program

/-- A walk from `pos` spells out the rest of the program, byte for byte. -/
theorem listing_iff {p : Program} {pos : Nat} {l : List (Nat × Instr)} :
    Listing p pos l ↔ pos ≤ p.size ∧ (∀ i ∈ l.map Prod.snd, i.Encodable) ∧
      p.bytes.toList.drop pos = (l.map Prod.snd).flatMap Instr.bytes ∧
      l.map Prod.fst = offsetsFrom pos (l.map Prod.snd) := by
  induction l generalizing pos with
  | nil =>
    constructor
    · rintro ⟨⟩
      exact ⟨Nat.le_refl _, by simp, by simp [Program.size], rfl⟩
    · rintro ⟨hle, -, hdrop, -⟩
      have hge : p.size ≤ pos := by simpa [Program.size] using hdrop
      rw [Nat.le_antisymm hle hge]
      exact .nil
  | cons a rest ih =>
    obtain ⟨start, i⟩ := a
    simp only [List.map_cons, List.flatMap_cons, offsetsFrom, List.forall_mem_cons,
      List.cons.injEq]
    constructor
    · rintro (_ | ⟨hd, hrest⟩)
      obtain ⟨henc, rfl, hat⟩ := Instr.decode_eq_ok_iff_holdsAt.mp hd
      obtain ⟨hle, hall, hdrop, hoff⟩ := ih.mp hrest
      refine ⟨by omega, ⟨henc, hall⟩, ?_, rfl, hoff⟩
      rw [HoldsAt.iff_drop.mp hat, Instr.bytes_length, hdrop]
    · rintro ⟨hle, ⟨henc, hall⟩, hdrop, rfl, hoff⟩
      have hat : HoldsAt p.bytes start i.bytes := ⟨_, hdrop.symm⟩
      have hnext := hat.le_size i.bytes_ne_nil
      have htail := HoldsAt.iff_drop.mp hat
      rw [Instr.bytes_length] at hnext htail
      rw [htail] at hdrop
      refine .cons (Instr.decode_eq_ok_iff_holdsAt.mpr ⟨henc, rfl, hat⟩) (ih.mpr ?_)
      exact ⟨hnext, hall, List.append_cancel_left hdrop, hoff⟩

namespace Program

/-- Decoding and encoding of whole programs are inverse to each other. -/
theorem decodeAll_eq_ok_iff {p : Program} {l : List (Nat × Instr)} :
    p.decodeAll = .ok l ↔ ofInstrs (l.map Prod.snd) = .ok p ∧
      l.map Prod.fst = offsetsFrom 0 (l.map Prod.snd) := by
  rw [decodeAll_eq_ok_iff_listing, listing_iff, ofInstrs_eq_ok_iff, List.drop_zero, and_assoc]
  simp

theorem length_offsetsFrom (pos : Nat) (instrs : List Instr) :
    (offsetsFrom pos instrs).length = instrs.length := by
  induction instrs generalizing pos with
  | nil => rfl
  | cons i instrs ih => rw [offsetsFrom, List.length_cons, List.length_cons, ih]

theorem decodeAll_of_ofInstrs {instrs : List Instr} {p : Program}
    (h : ofInstrs instrs = .ok p) : p.decodeAll = .ok ((offsetsFrom 0 instrs).zip instrs) := by
  have hlength := length_offsetsFrom 0 instrs
  have hfst : ((offsetsFrom 0 instrs).zip instrs).map Prod.fst = offsetsFrom 0 instrs :=
    List.map_fst_zip (by omega)
  have hsnd : ((offsetsFrom 0 instrs).zip instrs).map Prod.snd = instrs :=
    List.map_snd_zip (by omega)
  rw [decodeAll_eq_ok_iff, hfst, hsnd]
  exact ⟨h, rfl⟩

theorem exists_decodeAll_of_ofInstrs {instrs : List Instr} {p : Program}
    (h : ofInstrs instrs = .ok p) : ∃ l, p.decodeAll = .ok l :=
  ⟨_, decodeAll_of_ofInstrs h⟩

end Program

theorem offsetsFrom_append (pos : Nat) (instrs : List Instr) (i : Instr) :
    offsetsFrom pos (instrs ++ [i]) =
      offsetsFrom pos instrs ++ [pos + (instrs.flatMap Instr.bytes).length] := by
  induction instrs generalizing pos with
  | nil => simp [offsetsFrom]
  | cons j instrs ih => simp [offsetsFrom, ih, Nat.add_assoc]

theorem offsetsFrom_congr {xs ys : List Instr} (h : xs.map Instr.size = ys.map Instr.size)
    (pos : Nat) : offsetsFrom pos xs = offsetsFrom pos ys := by
  induction xs generalizing ys pos with
  | nil =>
    cases ys with
    | nil => rfl
    | cons => cases h
  | cons x xs ih =>
    cases ys with
    | nil => cases h
    | cons y ys =>
      obtain ⟨hsize, hrest⟩ := List.cons.inj h
      rw [offsetsFrom, offsetsFrom, hsize, ih hrest]

theorem length_flatMap_bytes_congr {xs ys : List Instr}
    (h : xs.map Instr.size = ys.map Instr.size) :
    (xs.flatMap Instr.bytes).length = (ys.flatMap Instr.bytes).length := by
  simp only [List.length_flatMap, Instr.bytes_length]
  exact congrArg List.sum h

theorem Program.size_of_ofInstrs {instrs : List Instr} {p : Program}
    (h : ofInstrs instrs = .ok p) : p.size = (instrs.flatMap Instr.bytes).length := by
  obtain ⟨-, hbytes⟩ := ofInstrs_eq_ok_iff.mp h
  exact congrArg List.length hbytes

theorem Program.size_of_decodeAll {p : Program} {l : List (Nat × Instr)}
    (h : p.decodeAll = .ok l) : p.size = ((l.map Prod.snd).flatMap Instr.bytes).length :=
  size_of_ofInstrs (decodeAll_eq_ok_iff.mp h).1

/-- Decoding inverts encoding, one instruction at a time and over whole programs: an instruction is
read at `pos` exactly when it has an encoding and that encoding is what stands there, and a program
decodes to a list exactly when it is the encoding of that list, laid out from offset zero. -/
theorem codec_exact :
    (∀ (code : Array UInt8) (pos next : Nat) (i : Instr),
      Instr.decode code pos = .ok (i, next) ↔
        (∀ t : String, i = ⟨.pushText, t⟩ → t.utf8ByteSize ≤ 255) ∧
          next = pos + i.size ∧ next ≤ code.size ∧
          i.encode = .ok (code.extract pos next).toList) ∧
    ∀ (p : Program) (l : List (Nat × Instr)),
      p.decodeAll = .ok l ↔ Program.ofInstrs (l.map Prod.snd) = .ok p ∧
        l.map Prod.fst = offsetsFrom 0 (l.map Prod.snd) := by
  constructor
  · intro code pos next i
    rw [Instr.decode_eq_ok_iff, Instr.encodable_iff]
  · intro p l
    exact Program.decodeAll_eq_ok_iff

end StackVM
