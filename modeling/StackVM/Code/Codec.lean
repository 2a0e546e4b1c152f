import StackVM.Code.Error
import StackVM.Code.Instr

/-! # Byte encoding of instructions

`Instr.encode` writes an opcode byte and the operand block of its shape; `Instr.decode` reads the
instruction that starts at an offset and gives the offset after it. Only a text literal of more
than 255 bytes has no encoding.
-/
namespace StackVM

def bytesLE : (width value : Nat) → List UInt8
  | 0, _ => []
  | w + 1, n => UInt8.ofNat n :: bytesLE w (n / 256)

def readLE (code : Array UInt8) : (width pos : Nat) → Option Nat
  | 0, _ => some 0
  | w + 1, pos =>
    match code[pos]?, readLE code w (pos + 1) with
    | some low, some high => some (low.toNat + 256 * high)
    | _, _ => none

def maxTextSize : Nat := 255

inductive ReadFault
  | truncated
  | notUtf8
  deriving DecidableEq

namespace Shape

def operandBytes : (s : Shape) → s.Operand → List UInt8
  | .bare, _ => []
  | .int, n => bytesLE 8 n.toUInt64.toNat
  | .text, t => UInt8.ofNat t.utf8ByteSize :: t.toUTF8.data.toList
  | .index, n => bytesLE 2 n.toNat
  | .slot, n => [n]
  | .offset, d => bytesLE 2 d.toUInt16.toNat
  | .entry, e => bytesLE 2 e.offset.toUInt16.toNat ++ [e.params, e.slots]
  | .upvar, u => [u.depth, u.slot]

/-- A text fits its length byte; every other operand fits. -/
def Fits : (s : Shape) → s.Operand → Prop
  | .text, t => t.utf8ByteSize ≤ maxTextSize
  | _, _ => True

instance decFits : (s : Shape) → (x : s.Operand) → Decidable (s.Fits x)
  | .text, t => inferInstanceAs (Decidable (t.utf8ByteSize ≤ maxTextSize))
  | .bare, _ | .int, _ | .index, _ | .slot, _ | .offset, _ | .entry, _ | .upvar, _ =>
    inferInstanceAs (Decidable True)

def readText (code : Array UInt8) (pos : Nat) : Except ReadFault String :=
  match code[pos]? with
  | none => .error .truncated
  | some size =>
    if pos + 1 + size.toNat ≤ code.size then
      match String.fromUTF8? ⟨code.extract (pos + 1) (pos + 1 + size.toNat)⟩ with
      | some t => .ok t
      | none => .error .notUtf8
    else .error .truncated

def orTruncated {α : Type} : Option α → Except ReadFault α
  | some a => .ok a
  | none => .error .truncated

/-- The operand of a given shape whose bytes start at `pos`. -/
def readOperand (code : Array UInt8) (pos : Nat) : (s : Shape) → Except ReadFault s.Operand
  | .bare => .ok ()
  | .int => orTruncated ((readLE code 8 pos).map fun n => (UInt64.ofNat n).toInt64)
  | .text => readText code pos
  | .index => orTruncated ((readLE code 2 pos).map UInt16.ofNat)
  | .slot => orTruncated code[pos]?
  | .offset => orTruncated ((readLE code 2 pos).map fun n => (UInt16.ofNat n).toInt16)
  | .entry => orTruncated do
    let offset ← readLE code 2 pos
    let params ← code[pos + 2]?
    let slots ← code[pos + 3]?
    return ⟨(UInt16.ofNat offset).toInt16, params, slots⟩
  | .upvar => orTruncated do
    let depth ← code[pos]?
    let slot ← code[pos + 1]?
    return ⟨depth, slot⟩

end Shape

namespace Instr

/-- An instruction that has an encoding. -/
def Encodable (i : Instr) : Prop := i.opcode.shape.Fits i.operand

instance (i : Instr) : Decidable i.Encodable := inferInstanceAs (Decidable (Shape.Fits _ _))

def bytes (i : Instr) : List UInt8 :=
  i.opcode.toByte :: i.opcode.shape.operandBytes i.operand

def encode (i : Instr) : Except CodeError (List UInt8) :=
  if i.Encodable then .ok i.bytes else .error (.textTooLong (i.size - 2))

def opcodeAt (pos : Nat) (byte : UInt8) : Except CodeError Opcode :=
  match Opcode.ofByte? byte with
  | some op => .ok op
  | none => .error (.invalidOpcode pos byte)

/-- The instruction that starts at `pos` and the offset after it. -/
def decode (code : Array UInt8) (pos : Nat) : Except CodeError (Instr × Nat) :=
  match code[pos]? with
  | none => .error (.outOfBounds pos code.size)
  | some byte =>
    match opcodeAt pos byte with
    | .error e => .error e
    | .ok op =>
      match op.shape.readOperand code (pos + 1) with
      | .error .truncated => .error (.truncatedOperand pos op)
      | .error .notUtf8 => .error (.invalidText pos)
      | .ok operand =>
        let i : Instr := ⟨op, operand⟩
        .ok (i, pos + i.size)

theorem lt_size_of_decode {code : Array UInt8} {pos next : Nat} {i : Instr}
    (h : decode code pos = .ok (i, next)) : pos < code.size := by
  unfold decode at h
  split at h
  · cases h
  · next hb => exact (Array.getElem?_eq_some_iff.mp hb).1

theorem next_eq_of_decode {code : Array UInt8} {pos next : Nat} {i : Instr}
    (h : decode code pos = .ok (i, next)) : next = pos + i.size := by
  unfold decode at h
  split at h
  · cases h
  · split at h
    · cases h
    · split at h <;> cases h
      rfl

end Instr
end StackVM
