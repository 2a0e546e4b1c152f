/-! # Hexadecimal text

Numbers in lowercase hexadecimal without padding, bytes as two digits each.
-/
namespace StackVM.Hex

def ofNat (n : Nat) : String := String.ofList (Nat.toDigits 16 n)

def digit (n : Nat) : Char := Nat.digitChar n

def ofByte (b : UInt8) : String := String.ofList [digit (b.toNat / 16), digit (b.toNat % 16)]

def ofBytes (bytes : Array UInt8) : String := bytes.foldl (fun s b => s ++ ofByte b) ""

def digitValue? (c : Char) : Option Nat :=
  if '0' ≤ c ∧ c ≤ '9' then some (c.toNat - 48)
  else if 'a' ≤ c ∧ c ≤ 'f' then some (c.toNat - 87)
  else if 'A' ≤ c ∧ c ≤ 'F' then some (c.toNat - 55)
  else none

/-- Bytes written as pairs of digits; an odd digit or another character is refused. -/
def toBytes? (text : String) : Option (Array UInt8) :=
  let rec go (acc : Array UInt8) : List Char → Option (Array UInt8)
    | [] => some acc
    | [_] => none
    | hi :: lo :: rest =>
      match digitValue? hi, digitValue? lo with
      | some h, some l => go (acc.push (UInt8.ofNat (16 * h + l))) rest
      | _, _ => none
  go #[] text.toList

end StackVM.Hex
