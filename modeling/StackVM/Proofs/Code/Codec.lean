import StackVM.Code.Codec
import Mathlib.Algebra.Group.Nat.Even

/-! # The instruction codec is exact

Bytes decode to an instruction exactly where the encoding of that instruction stands. The bytes
that stand at a position are a list; every reader of the codec is characterized by the list it
accepts, first for numbers, then for the operand of each shape, then for whole instructions.
-/
namespace StackVM

theorem bind_eq_ok_iff {ε α β : Type} {x : Except ε α} {f : α → Except ε β} {b : β} :
    (x >>= f) = .ok b ↔ ∃ a, x = .ok a ∧ f a = .ok b := by
  cases x with
  | error e => simp [bind, Except.bind]
  | ok a => simp [bind, Except.bind]

/-- The bytes stand in `code` from `pos` on. -/
def HoldsAt (code : Array UInt8) (pos : Nat) (bytes : List UInt8) : Prop :=
  bytes <+: code.toList.drop pos

namespace HoldsAt
variable {code : Array UInt8} {pos : Nat} {bytes : List UInt8}

@[simp] theorem nil : HoldsAt code pos [] := List.nil_prefix

@[simp] theorem cons_iff {b : UInt8} :
    HoldsAt code pos (b :: bytes) ↔ code[pos]? = some b ∧ HoldsAt code (pos + 1) bytes := by
  unfold HoldsAt
  by_cases hpos : pos < code.size
  · have hdrop := List.drop_eq_getElem_cons (by simpa using hpos : pos < code.toList.length)
    rw [hdrop, List.cons_prefix_cons]
    simp [Array.getElem?_eq_getElem hpos, eq_comm]
  · have hdrop : code.toList.drop pos = [] := by simpa using hpos
    simp [hdrop, Array.getElem?_eq_none (Nat.le_of_not_lt hpos)]

theorem append_iff {more : List UInt8} :
    HoldsAt code pos (bytes ++ more) ↔
      HoldsAt code pos bytes ∧ HoldsAt code (pos + bytes.length) more := by
  induction bytes generalizing pos with
  | nil => simp
  | cons b bs ih =>
    simp only [List.cons_append, cons_iff, ih, List.length_cons, and_assoc]
    rw [show pos + 1 + bs.length = pos + (bs.length + 1) by omega]

theorem iff_getElem? :
    HoldsAt code pos bytes ↔ ∀ k (h : k < bytes.length), code[pos + k]? = some bytes[k] := by
  unfold HoldsAt
  rw [List.prefix_iff_getElem?]
  simp

theorem iff_extract :
    HoldsAt code pos bytes ↔ (code.extract pos (pos + bytes.length)).toList = bytes := by
  unfold HoldsAt
  rw [List.prefix_iff_eq_take, Array.toList_extract, List.extract_eq_take_drop,
    Nat.add_sub_cancel_left, eq_comm]

theorem iff_drop :
    HoldsAt code pos bytes ↔
      code.toList.drop pos = bytes ++ code.toList.drop (pos + bytes.length) := by
  unfold HoldsAt
  rw [List.prefix_iff_eq_append, List.drop_drop, eq_comm]

theorem le_size (h : HoldsAt code pos bytes) (hne : bytes ≠ []) :
    pos + bytes.length ≤ code.size := by
  have hlen := List.length_pos_iff.mpr hne
  have hle := List.IsPrefix.length_le h
  simp only [List.length_drop, Array.length_toList] at hle
  omega

end HoldsAt

@[simp] theorem bytesLE_length (w n : Nat) : (bytesLE w n).length = w := by
  induction w generalizing n with
  | zero => rfl
  | succ w ih => simp [bytesLE, ih]

/-- Reading gives a number exactly where its bytes stand, and only a number of that width. -/
theorem readLE_eq_some_iff {code : Array UInt8} {w pos n : Nat} :
    readLE code w pos = some n ↔ n < 256 ^ w ∧ HoldsAt code pos (bytesLE w n) := by
  induction w generalizing pos n with
  | zero => simp [readLE, bytesLE, eq_comm]
  | succ w ih =>
    simp only [readLE, bytesLE, HoldsAt.cons_iff]
    constructor
    · intro h
      split at h
      next low high hlow hhigh =>
        obtain ⟨hlt, hat⟩ := ih.mp hhigh
        have hb := low.toNat_lt
        cases h
        have hdiv : (low.toNat + 256 * high) / 256 = high := by omega
        have hbyte : UInt8.ofNat (low.toNat + 256 * high) = low := by
          apply UInt8.toNat_inj.mp
          simp only [UInt8.toNat_ofNat', Nat.reducePow]
          omega
        rw [hdiv, hbyte, pow_succ]
        exact ⟨by omega, hlow, hat⟩
      next => cases h
    · rintro ⟨hlt, hlow, hat⟩
      rw [pow_succ] at hlt
      have hhigh := ih.mpr ⟨by omega, hat⟩
      have hsum : (UInt8.ofNat n).toNat + 256 * (n / 256) = n := by
        simp only [UInt8.toNat_ofNat', Nat.reducePow]
        omega
      simp only [hlow, hhigh, hsum]

theorem exists_readLE_two_iff {code : Array UInt8} {pos : Nat} {n : UInt16} :
    (∃ m, readLE code 2 pos = some m ∧ UInt16.ofNat m = n) ↔
      HoldsAt code pos (bytesLE 2 n.toNat) := by
  constructor
  · rintro ⟨m, hm, rfl⟩
    obtain ⟨hlt, hat⟩ := readLE_eq_some_iff.mp hm
    rwa [UInt16.toNat_ofNat_of_lt' hlt]
  · intro hat
    exact ⟨n.toNat, readLE_eq_some_iff.mpr ⟨n.toNat_lt, hat⟩, UInt16.ofNat_toNat⟩

theorem exists_readLE_eight_iff {code : Array UInt8} {pos : Nat} {n : UInt64} :
    (∃ m, readLE code 8 pos = some m ∧ UInt64.ofNat m = n) ↔
      HoldsAt code pos (bytesLE 8 n.toNat) := by
  constructor
  · rintro ⟨m, hm, rfl⟩
    obtain ⟨hlt, hat⟩ := readLE_eq_some_iff.mp hm
    rwa [UInt64.toNat_ofNat_of_lt' hlt]
  · intro hat
    exact ⟨n.toNat, readLE_eq_some_iff.mpr ⟨n.toNat_lt, hat⟩, UInt64.ofNat_toNat⟩

theorem toInt16_eq_iff {n : UInt16} {d : Int16} : n.toInt16 = d ↔ n = d.toUInt16 := by
  constructor
  · rintro rfl
    exact n.toUInt16_toInt16.symm
  · rintro rfl
    exact d.toInt16_toUInt16

theorem toInt64_eq_iff {n : UInt64} {d : Int64} : n.toInt64 = d ↔ n = d.toUInt64 := by
  constructor
  · rintro rfl
    exact n.toUInt64_toInt64.symm
  · rintro rfl
    exact d.toInt64_toUInt64

theorem fromUTF8?_eq_some_iff {bytes : ByteArray} {t : String} :
    String.fromUTF8? bytes = some t ↔ t.toUTF8 = bytes := by
  unfold String.fromUTF8?
  constructor
  · intro h
    split at h
    · cases h
      rfl
    · cases h
  · rintro rfl
    exact dif_pos t.isValidUTF8

namespace Shape
variable {code : Array UInt8} {pos : Nat}

@[simp] theorem orTruncated_eq_ok_iff {α : Type} {o : Option α} {a : α} :
    orTruncated o = .ok a ↔ o = some a := by
  cases o <;> simp [orTruncated]

@[simp] theorem operandBytes_length (s : Shape) (x : s.Operand) :
    (s.operandBytes x).length = s.operandSize x := by
  cases s with
  | text =>
    simp only [operandBytes, operandSize, List.length_cons, Array.length_toList]
    rw [Nat.add_comm]
    rfl
  | _ => simp [operandBytes, operandSize]

theorem readText_eq_ok_iff {t : String} :
    readText code pos = .ok t ↔
      t.utf8ByteSize ≤ maxTextSize ∧ HoldsAt code pos (operandBytes .text t) := by
  have hlen : t.toUTF8.data.toList.length = t.utf8ByteSize := rfl
  simp only [operandBytes, HoldsAt.cons_iff, readText]
  constructor
  · intro h
    split at h
    next => cases h
    next size hsize =>
      have hb := size.toNat_lt
      split at h
      next hle =>
        split at h
        next t' ht =>
          cases h
          have hbytes := congrArg ByteArray.data (fromUTF8?_eq_some_iff.mp ht)
          have hn : t.utf8ByteSize = size.toNat := by
            rw [← hlen, hbytes, Array.length_toList, Array.size_extract]
            omega
          refine ⟨by simp only [maxTextSize]; omega, ?_, ?_⟩
          · rw [hsize, hn, UInt8.ofNat_toNat]
          · rw [HoldsAt.iff_extract, hlen, hn]
            exact congrArg Array.toList hbytes.symm
        next => cases h
      next => cases h
  · rintro ⟨hfits, hsize, hat⟩
    have hn : (UInt8.ofNat t.utf8ByteSize).toNat = t.utf8ByteSize :=
      UInt8.toNat_ofNat_of_lt' (Nat.lt_succ_of_le hfits)
    have hle := HoldsAt.le_size (HoldsAt.cons_iff.mpr ⟨hsize, hat⟩) (List.cons_ne_nil _ _)
    rw [List.length_cons, hlen] at hle
    have hbytes := HoldsAt.iff_extract.mp hat
    rw [hlen] at hbytes
    have ht : String.fromUTF8? ⟨code.extract (pos + 1) (pos + 1 + t.utf8ByteSize)⟩ = some t := by
      rw [fromUTF8?_eq_some_iff, Array.ext' hbytes]
    simp only [hsize, hn]
    rw [if_pos (by omega), ht]

theorem readOperand_eq_ok_iff {s : Shape} {x : s.Operand} :
    readOperand code pos s = .ok x ↔ s.Fits x ∧ HoldsAt code pos (s.operandBytes x) := by
  cases s with
  | bare => simp [readOperand, Fits, operandBytes]
  | int =>
    simp only [readOperand, Fits, operandBytes, orTruncated_eq_ok_iff, true_and,
      Option.map_eq_some_iff, toInt64_eq_iff, exists_readLE_eight_iff]
  | text => exact readText_eq_ok_iff
  | index => simp [readOperand, Fits, operandBytes, exists_readLE_two_iff]
  | slot => simp [readOperand, Fits, operandBytes]
  | offset =>
    simp only [readOperand, Fits, operandBytes, orTruncated_eq_ok_iff, true_and,
      Option.map_eq_some_iff, toInt16_eq_iff, exists_readLE_two_iff]
  | entry =>
    obtain ⟨offset, params, slots⟩ := x
    simp only [readOperand, Fits, operandBytes, orTruncated_eq_ok_iff, true_and,
      HoldsAt.append_iff, HoldsAt.cons_iff, bytesLE_length, ← exists_readLE_two_iff]
    simp only [bind, Option.bind_eq_some_iff, pure, Option.some.injEq, EntryPoint.mk.injEq,
      toInt16_eq_iff]
    constructor
    · rintro ⟨n, hn, p, hp, k, hk, hoff, rfl, rfl⟩
      exact ⟨⟨n, hn, hoff⟩, hp, hk, .nil⟩
    · rintro ⟨⟨n, hn, hoff⟩, hp, hk, _⟩
      exact ⟨n, hn, params, hp, slots, hk, hoff, rfl, rfl⟩
  | upvar =>
    obtain ⟨depth, slot⟩ := x
    simp only [readOperand, Fits, operandBytes, orTruncated_eq_ok_iff, true_and, HoldsAt.cons_iff]
    simp only [bind, Option.bind_eq_some_iff, pure, Option.some.injEq, Upvar.mk.injEq]
    constructor
    · rintro ⟨d, hd, n, hn, rfl, rfl⟩
      exact ⟨hd, hn, .nil⟩
    · rintro ⟨hd, hn, _⟩
      exact ⟨depth, hd, slot, hn, rfl, rfl⟩

end Shape

namespace Instr
variable {code : Array UInt8} {pos next : Nat} {i : Instr}

@[simp] theorem bytes_length (i : Instr) : i.bytes.length = i.size := by
  simp only [bytes, List.length_cons, Shape.operandBytes_length, size]
  omega

theorem bytes_ne_nil (i : Instr) : i.bytes ≠ [] := List.cons_ne_nil _ _

theorem encode_eq_ok_iff {bytes : List UInt8} :
    i.encode = .ok bytes ↔ i.Encodable ∧ bytes = i.bytes := by
  unfold encode
  split <;> simp_all [eq_comm]

theorem encodable_iff : i.Encodable ↔ ∀ t : String, i = ⟨.pushText, t⟩ → t.utf8ByteSize ≤ 255 := by
  obtain ⟨op, x⟩ := i
  cases op with
  | pushText =>
    constructor
    · rintro h t ⟨⟩
      exact h
    · intro h
      exact h x rfl
  | _ =>
    refine iff_of_true trivial ?_
    intro t h
    injection h with hop
    cases hop

theorem opcodeAt_eq_ok_iff {byte : UInt8} {op : Opcode} :
    opcodeAt pos byte = .ok op ↔ byte = op.toByte := by
  unfold opcodeAt
  constructor
  · intro h
    split at h
    next op' hop =>
      cases h
      exact (Opcode.toByte_of_ofByte? hop).symm
    next => cases h
  · rintro rfl
    rw [Opcode.ofByte?_toByte]

/-- An instruction decodes exactly where its bytes stand. -/
theorem decode_eq_ok_iff_holdsAt :
    decode code pos = .ok (i, next) ↔
      i.Encodable ∧ next = pos + i.size ∧ HoldsAt code pos i.bytes := by
  obtain ⟨op, x⟩ := i
  simp only [bytes, HoldsAt.cons_iff, Encodable]
  constructor
  · intro h
    have hnext := next_eq_of_decode h
    unfold decode at h
    split at h
    next => cases h
    next byte hbyte =>
      split at h
      next => cases h
      next op' hop =>
        have hop := opcodeAt_eq_ok_iff.mp hop
        split at h
        next => cases h
        next => cases h
        next x' hx =>
          cases h
          obtain ⟨hfits, hat⟩ := Shape.readOperand_eq_ok_iff.mp hx
          exact ⟨hfits, hnext, hop ▸ hbyte, hat⟩
  · rintro ⟨hfits, rfl, hbyte, hat⟩
    have hop : opcodeAt pos op.toByte = .ok op := opcodeAt_eq_ok_iff.mpr rfl
    have hx := Shape.readOperand_eq_ok_iff.mpr ⟨hfits, hat⟩
    simp only [decode, hbyte, hop, hx]

theorem decode_eq_ok_iff :
    decode code pos = .ok (i, next) ↔
      i.Encodable ∧ next = pos + i.size ∧ next ≤ code.size ∧
        i.encode = .ok (code.extract pos next).toList := by
  rw [decode_eq_ok_iff_holdsAt]
  constructor
  · rintro ⟨henc, rfl, hat⟩
    have hle := hat.le_size i.bytes_ne_nil
    have hext := HoldsAt.iff_extract.mp hat
    rw [bytes_length] at hle hext
    exact ⟨henc, rfl, hle, encode_eq_ok_iff.mpr ⟨henc, hext⟩⟩
  · rintro ⟨henc, rfl, _, hext⟩
    refine ⟨henc, rfl, HoldsAt.iff_extract.mpr ?_⟩
    rw [bytes_length]
    exact (encode_eq_ok_iff.mp hext).2

theorem le_size_of_decode (h : decode code pos = .ok (i, next)) : next ≤ code.size :=
  (decode_eq_ok_iff.mp h).2.2.1

end Instr
end StackVM
