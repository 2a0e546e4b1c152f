import StackVM.Text.Hex

/-! # Number literals

A number is written in decimal, with a dash in front if it is negative, and has to fit sixty-four
signed bits. After `0x` or `0X` it is a bit pattern of at most sixty-four bits in hexadecimal
digits, which may have a plus sign in front; a dash before the `0x` negates the pattern read as a
signed number.
-/
namespace StackVM.Number

def decimalDigit? (c : Char) : Option Nat :=
  if '0' ≤ c ∧ c ≤ '9' then some (c.toNat - 48) else none

/-- The value of a nonempty run of digits in some base. -/
def digits? (base : Nat) (digit? : Char → Option Nat) (cs : List Char) : Option Nat :=
  if cs.isEmpty then none
  else cs.foldlM (fun n c => (digit? c).map (base * n + ·)) 0

def ofInt? (n : Int) : Option Int64 :=
  if Int64.minValue.toInt ≤ n ∧ n ≤ Int64.maxValue.toInt then some (Int64.ofInt n) else none

def decimal? (negative : Bool) (cs : List Char) : Option Int64 := do
  let n ← digits? 10 decimalDigit? cs
  ofInt? (if negative then -(n : Int) else n)

def pattern? (cs : List Char) : Option UInt64 := do
  let n ← digits? 16 Hex.digitValue? (match cs with | '+' :: rest => rest | _ => cs)
  if n < UInt64.size then some (UInt64.ofNat n) else none

def hexadecimal? (negative : Bool) (cs : List Char) : Option Int64 := do
  let n := (← pattern? cs).toInt64
  if negative then
    if n = Int64.minValue then none else some (-n)
  else some n

def ofUnsigned? (negative : Bool) : List Char → Option Int64
  | '0' :: 'x' :: cs => hexadecimal? negative cs
  | '0' :: 'X' :: cs => hexadecimal? negative cs
  | cs => decimal? negative cs

def ofChars? : List Char → Option Int64
  | '-' :: cs => ofUnsigned? true cs
  | cs => ofUnsigned? false cs

end StackVM.Number
