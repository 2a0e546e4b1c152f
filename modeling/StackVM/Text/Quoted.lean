import StackVM.Text.Hex
import StackVM.Text.Printable

/-! # Quoted text

Two written forms of a text. `escape` is the form of assembly literals: six characters are
written as a backslash and a letter and all others stand for themselves. `quote` is the form of
texts inside rendered containers and error messages: it has the same six escapes, and every
unprintable character is written by its code point.
-/
namespace StackVM.Text

def simpleEscape? (c : Char) : Option Char :=
  if c = '"' then some '"'
  else if c = '\\' then some '\\'
  else if c = '\n' then some 'n'
  else if c = '\t' then some 't'
  else if c = '\r' then some 'r'
  else if c = '\x00' then some '0'
  else none

def unescape? (c : Char) : Option Char :=
  if c = '"' then some '"'
  else if c = '\\' then some '\\'
  else if c = 'n' then some '\n'
  else if c = 't' then some '\t'
  else if c = 'r' then some '\r'
  else if c = '0' then some '\x00'
  else none

def escapeChar (c : Char) : List Char :=
  match simpleEscape? c with
  | some e => ['\\', e]
  | none => [c]

/-- The inside of an assembly literal. -/
def escape (text : String) : String := String.ofList (text.toList.flatMap escapeChar)

theorem unescape?_of_simpleEscape? {c e : Char} (h : simpleEscape? c = some e) :
    unescape? e = some c := by
  unfold simpleEscape? at h
  repeat' split at h
  all_goals cases h <;> subst_vars <;> rfl

def quoteChar (c : Char) : List Char :=
  match simpleEscape? c with
  | some e => ['\\', e]
  | none => if isPrintable c then [c] else ['\\', 'u', '\x7b'] ++ Nat.toDigits 16 c.toNat ++ ['\x7d']

def quote (text : String) : String :=
  String.ofList ('"' :: text.toList.flatMap quoteChar ++ ['"'])

end StackVM.Text
