import StackVM.Asm.Error
import StackVM.Asm.Number
import StackVM.Text.Blank
import StackVM.Text.Quoted

/-! # Tokens of a source line

A line is scanned one character at a time. Blanks separate words, a double quote opens a text
literal and ends a word, and a semicolon outside a literal starts a comment. The scanner's mode
is all it remembers of the characters before, apart from the finished tokens.
-/
namespace StackVM

inductive Token
  | ident (name : String)
  | number (value : Int64)
  | text (value : String)
  | labelDef (name : String)
  deriving DecidableEq

namespace Token

/-- How an unexpected token is shown. -/
def spelling : Token → String
  | .ident name => name
  | .number n => toString n.toInt
  | .text t => Text.quote t
  | .labelDef name => name ++ ":"

def isIdentHead (c : Char) : Bool := c.isAlpha || c == '_' || c == '.'

def isIdentTail (c : Char) : Bool := c.isAlphanum || c == '_' || c == '.'

def isIdent : List Char → Bool
  | [] => false
  | c :: cs => isIdentHead c && cs.all isIdentTail

def looksNumeric (word : List Char) : Bool :=
  match word.dropWhile (· == '-') with
  | c :: _ => c.isDigit
  | [] => false

/-- The token that a word without blanks, semicolons and quotes stands for. -/
def ofWord (word : List Char) : Except LineFault Token :=
  if word.getLast? = some ':' then
    if isIdent word.dropLast then .ok (.labelDef (String.ofList word.dropLast))
    else .error (.unexpectedToken (String.ofList word))
  else if isIdent word then .ok (.ident (String.ofList word))
  else if looksNumeric word then
    match Number.ofChars? word with
    | some n => .ok (.number n)
    | none => .error (.invalidNumber (String.ofList word))
  else .error (.unexpectedToken (String.ofList word))

end Token

/-- What the characters since the last finished token belong to. Collected characters are newest
first. -/
inductive ScanMode
  | gap
  | word (rev : List Char)
  | text (rev : List Char)
  | escape (rev : List Char)
  | comment
  deriving DecidableEq

structure Scan where
  tokens : List Token
  mode : ScanMode
  deriving DecidableEq

namespace Scan

def start : Scan := ⟨[], .gap⟩

def opening (c : Char) : ScanMode :=
  if c = ';' then .comment
  else if Text.isBlank c then .gap
  else if c = '"' then .text []
  else .word [c]

def endsWord (c : Char) : Bool := Text.isBlank c || c == ';' || c == '"'

def step (s : Scan) (c : Char) : Except LineFault Scan :=
  match s.mode with
  | .gap => .ok ⟨s.tokens, opening c⟩
  | .word rev =>
    if endsWord c then do
      let token ← Token.ofWord rev.reverse
      return ⟨token :: s.tokens, opening c⟩
    else .ok ⟨s.tokens, .word (c :: rev)⟩
  | .text rev =>
    if c = '"' then .ok ⟨.text (String.ofList rev.reverse) :: s.tokens, .gap⟩
    else if c = '\\' then .ok ⟨s.tokens, .escape rev⟩
    else .ok ⟨s.tokens, .text (c :: rev)⟩
  | .escape rev =>
    match Text.unescape? c with
    | some d => .ok ⟨s.tokens, .text (d :: rev)⟩
    | none => .error (.invalidEscape c)
  | .comment => .ok s

def finish (s : Scan) : Except LineFault (List Token) :=
  match s.mode with
  | .gap | .comment => .ok s.tokens.reverse
  | .word rev => do
    let token ← Token.ofWord rev.reverse
    return (token :: s.tokens).reverse
  | .text _ | .escape _ => .error .unterminatedText

end Scan

/-- The tokens of one line; none for a blank line or one that only holds a comment. -/
def tokenize (line : List Char) : Except LineFault (List Token) := do
  (← line.foldlM Scan.step Scan.start).finish

end StackVM
