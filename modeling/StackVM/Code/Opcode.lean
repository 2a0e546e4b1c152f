/-! # Opcodes

The instruction set is a table of thirty-nine opcodes. An opcode's byte is its position in the
table, and its shape says which operand block follows that byte in a program.
-/
namespace StackVM

inductive Opcode
  | halt
  | pushNull
  | pushFalse
  | pushTrue
  | pushUndef
  | pushInt
  | pushText
  | dup
  | pop
  | resolveGlobal
  | patch
  | initDone
  | fetchGlobal
  | storeGlobal
  | fetchLocal
  | storeLocal
  | call
  | ret
  | jump
  | jumpTrue
  | jumpFalse
  | makeArr
  | makeClosure
  | toStr
  | makeStr
  | pushEmptyStr
  | globalDefined
  | localDefined
  | defGlobalFun
  | defLocalFun
  | fetchUpvar
  | storeUpvar
  | upvarDefined
  | defUpvarFun
  | makeHash
  | toBool
  | tryStart
  | tryEnd
  | throw
  deriving DecidableEq, Inhabited

/-- The operand block after an opcode byte. Multi-byte operands are little-endian. -/
inductive Shape
  | bare
  | int
  | text
  | index
  | slot
  | offset
  | entry
  | upvar
  deriving DecidableEq, Inhabited

namespace Opcode

def all : Array Opcode := #[
  .halt, .pushNull, .pushFalse, .pushTrue, .pushUndef, .pushInt, .pushText, .dup, .pop,
  .resolveGlobal, .patch, .initDone, .fetchGlobal, .storeGlobal, .fetchLocal, .storeLocal,
  .call, .ret, .jump, .jumpTrue, .jumpFalse, .makeArr, .makeClosure, .toStr, .makeStr,
  .pushEmptyStr, .globalDefined, .localDefined, .defGlobalFun, .defLocalFun, .fetchUpvar,
  .storeUpvar, .upvarDefined, .defUpvarFun, .makeHash, .toBool, .tryStart, .tryEnd, .throw]

def toByte (op : Opcode) : UInt8 := UInt8.ofNat op.ctorIdx

def ofByte? (byte : UInt8) : Option Opcode := all[byte.toNat]?

theorem ofByte?_toByte (op : Opcode) : ofByte? op.toByte = some op := by
  cases op <;> rfl

theorem ctorIdx_getElem_all : ∀ i : Fin all.size, all[i].ctorIdx = i.val := by
  decide

theorem toByte_of_ofByte? {byte : UInt8} {op : Opcode} (h : ofByte? byte = some op) :
    op.toByte = byte := by
  obtain ⟨hlt, hop⟩ := Array.getElem?_eq_some_iff.mp h
  have hidx := ctorIdx_getElem_all ⟨byte.toNat, hlt⟩
  simp only [Fin.getElem_fin, hop] at hidx
  simp [toByte, hidx]

def mnemonic : Opcode → String
  | .halt => "HALT"
  | .pushNull => "PUSH_NULL"
  | .pushFalse => "PUSH_FALSE"
  | .pushTrue => "PUSH_TRUE"
  | .pushUndef => "PUSH_UNDEF"
  | .pushInt => "PUSH_INT"
  | .pushText => "PUSH_L_STR"
  | .dup => "DUP"
  | .pop => "POP"
  | .resolveGlobal => "RESOLVE_GLOBAL"
  | .patch => "PATCH"
  | .initDone => "INIT_DONE"
  | .fetchGlobal => "FETCH_GLOBAL"
  | .storeGlobal => "STORE_GLOBAL"
  | .fetchLocal => "FETCH_LOCAL"
  | .storeLocal => "STORE_LOCAL"
  | .call => "CALL"
  | .ret => "RET"
  | .jump => "JMP"
  | .jumpTrue => "JMP_TRUE"
  | .jumpFalse => "JMP_FALSE"
  | .makeArr => "MAKE_ARR"
  | .makeClosure => "MAKE_CLOSURE"
  | .toStr => "TO_STR"
  | .makeStr => "MAKE_STR"
  | .pushEmptyStr => "PUSH_EMPTY_STR"
  | .globalDefined => "GLOBAL_DEF_P"
  | .localDefined => "LOCAL_DEF_P"
  | .defGlobalFun => "DEF_GLOBAL_FUNC"
  | .defLocalFun => "DEF_LOCAL_FUNC"
  | .fetchUpvar => "FETCH_UPVAR"
  | .storeUpvar => "STORE_UPVAR"
  | .upvarDefined => "UPVAR_DEF_P"
  | .defUpvarFun => "DEF_UPVAR_FUNC"
  | .makeHash => "MAKE_HASH"
  | .toBool => "TO_BOOL"
  | .tryStart => "TRY_START"
  | .tryEnd => "TRY_END"
  | .throw => "THROW"

def ofMnemonic? (name : String) : Option Opcode := all.find? (·.mnemonic == name)

def shape : Opcode → Shape
  | .pushInt => .int
  | .pushText => .text
  | .patch | .fetchGlobal | .storeGlobal | .globalDefined | .defGlobalFun
  | .makeArr | .makeStr | .makeHash => .index
  | .fetchLocal | .storeLocal | .localDefined | .defLocalFun | .call => .slot
  | .jump | .jumpTrue | .jumpFalse | .tryStart => .offset
  | .makeClosure => .entry
  | .fetchUpvar | .storeUpvar | .upvarDefined | .defUpvarFun => .upvar
  | .halt | .pushNull | .pushFalse | .pushTrue | .pushUndef | .dup | .pop | .resolveGlobal
  | .initDone | .ret | .toStr | .pushEmptyStr | .toBool | .tryEnd | .throw => .bare

/-- Opcodes whose index operand names a global. These are the operands that linking may write. -/
def takesGlobal : Opcode → Bool
  | .fetchGlobal | .storeGlobal | .globalDefined | .defGlobalFun => true
  | _ => false

end Opcode
end StackVM
