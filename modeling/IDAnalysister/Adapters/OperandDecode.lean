import IDAnalysister.Instruction
import Mathlib.Data.Nat.Bitwise

/-!
# Operand decoding

The pure helpers of `adapters/ida_operand_decode.py` and the conversion of IDA's raw
operands in `adapters/ida_port_impl.py` that uses them. `sibIndex` and `sibScale` say what
an x86 SIB byte encodes; `decodeSib` reads the same out of it (`decodeSib_eq`), but the
conversion asks it for two of the three operand types that can carry a SIB byte.
-/

namespace IDAnalysister

/-! ## `ida_operand_decode.py` -/

/-- `rex_bits`: the REX byte of an instruction, or 0. -/
def rexBits : Option Nat → Nat
  | none => 0
  | some insnPrefix =>
      if insnPrefix = 0 then 0
      else if insnPrefix &&& 0xf0 ≠ 0x40 then 0
      else insnPrefix

/-- `decode_sib`: base, index and scale. -/
def decodeSib (sibByte rex : Nat) : Nat × Option Nat × Nat :=
  let scale := 1 <<< ((sibByte >>> 6) &&& 3)
  let indexBits := (sibByte >>> 3) &&& 7
  let baseBits := sibByte &&& 7
  let baseReg := baseBits ||| (if rex &&& 0x01 ≠ 0 then 8 else 0)
  if indexBits = 4 ∧ rex &&& 0x02 = 0 then (baseReg, none, scale)
  else (baseReg, some (indexBits ||| (if rex &&& 0x02 ≠ 0 then 8 else 0)), scale)

/-- `memory_operand_addressing`. -/
def memoryOperandAddressing (opReg : Nat) (hasSib : Bool) (sibByte rex : Nat) :
    Nat × Option Nat × Nat :=
  if hasSib then decodeSib sibByte rex else (opReg, none, 1)

/-- `sign_extend`. -/
def signExtend (value : Nat) (bits : Nat := 64) : Int :=
  let value := value &&& (1 <<< bits - 1)
  if value &&& (1 <<< (bits - 1)) ≠ 0 then (value : Int) - (1 <<< bits : Nat) else value

/-- `unsigned_of_width`. -/
def unsignedOfWidth (value sizeBytes : Nat) : Nat :=
  if sizeBytes = 0 ∨ 8 < sizeBytes then value else value &&& (1 <<< (sizeBytes * 8) - 1)

example : decodeSib 0xda (rexBits (some 0x4b)) = (10, some 11, 8) := by decide

/-! ## What a SIB byte encodes -/

/-- Bits 3 to 5, extended by `REX.X`, name the index register; 4 says that there is none. -/
def sibIndex (sibByte rex : Nat) : Option Nat :=
  let index := sibByte / 8 % 8 + if rex.testBit 1 then 8 else 0
  if index = 4 then none else some index

/-- The factor of the index is 1, 2, 4 or 8. -/
def sibScale (sibByte : Nat) : Nat := 1 <<< (sibByte / 64 % 4)

def sibBase (sibByte rex : Nat) : Nat := sibByte % 8 + if rex.testBit 0 then 8 else 0

theorem or_eight {n : Nat} (small : n < 8) (b : Bool) :
    n ||| (if b then 8 else 0) = n + if b then 8 else 0 := by
  have all : ∀ n < 8, ∀ b : Bool, n ||| (if b then 8 else 0) = n + if b then 8 else 0 := by decide
  exact all n small b

theorem and_one_ne_zero (rex : Nat) : rex &&& 1 ≠ 0 ↔ rex.testBit 0 = true := by
  rw [Nat.and_one_is_mod, Nat.testBit_zero]
  simp

theorem and_two_ne_zero (rex : Nat) : rex &&& 2 ≠ 0 ↔ rex.testBit 1 = true := by
  have bit := Nat.and_two_pow rex 1
  cases set : rex.testBit 1 <;> simp_all

theorem and_three (n : Nat) : n &&& 3 = n % 4 := Nat.and_two_pow_sub_one_eq_mod n 2

theorem and_seven (n : Nat) : n &&& 7 = n % 8 := Nat.and_two_pow_sub_one_eq_mod n 3

theorem decodeSib_eq (sibByte rex : Nat) :
    decodeSib sibByte rex = (sibBase sibByte rex, sibIndex sibByte rex, sibScale sibByte) := by
  have base := or_eight (Nat.mod_lt sibByte (by decide : 8 > 0)) (rex.testBit 0)
  have index := or_eight (Nat.mod_lt (sibByte / 8) (by decide : 8 > 0)) (rex.testBit 1)
  have clear : rex &&& 2 = 0 ↔ ¬ rex.testBit 1 = true := by
    rw [← and_two_ne_zero, not_not]
  simp only [decodeSib, and_three, and_seven, Nat.shiftRight_eq_div_pow, and_one_ne_zero,
    and_two_ne_zero, clear, base, index]
  cases extended : rex.testBit 1 with
  | false => split <;> simp_all [sibBase, sibIndex, sibScale]
  | true =>
      have other : ¬ sibByte / 8 % 8 + 8 = 4 := by omega
      simp [sibBase, sibIndex, sibScale, extended, other]

/-! ## IDA's operands -/

/-- `op_t.type`. -/
inductive IdaOpType
  | void
  | reg
  | mem
  | phrase
  | displ
  | imm
  | far
  | near
  /-- A type of the processor's own. -/
  | idpspec
  deriving DecidableEq

/-- The fields of an `op_t` that the conversion reads. -/
structure IdaOp where
  type : IdaOpType
  /-- `get_dtype_size(op.dtype)`. -/
  dtypeSize : Nat := 0
  reg : Nat := 0
  value : Nat := 0
  addr : Nat := 0
  /-- Not 0 when a SIB byte follows. -/
  specflag1 : Nat := 0
  /-- The SIB byte. -/
  specflag2 : Nat := 0

/-- The fields of an `insn_t` that the conversion of an operand reads. -/
structure IdaInsn where
  insnpref : Option Nat := none
  segpref : Option Int := none

/-- `_segment_override`, the name; `regName` is `_reg_name`. -/
def segmentOverride (regName : Nat → Option String) (insn : IdaInsn) : Option String :=
  match insn.segpref with
  | none => none
  | some segpref =>
      if segpref < 0 ∨ 15 < segpref then none
      else (regName segpref.toNat).bind fun name =>
        if name.toLower ∈ ["fs", "gs"] then some name.toLower else none

/-- `_convert_operand`. -/
def convertOperand (regName : Nat → Option String) (insn : IdaInsn) (op : IdaOp) (number : Nat) :
    Operand :=
  let segmentName := segmentOverride regName insn
  match op.type with
  | .reg =>
      { kind := .reg
        number
        reg := some op.reg
        dtypeSize := op.dtypeSize
        reg_isSome := fun _ => rfl
        addr_isSome := nofun
        imm_isSome := nofun }
  | .imm =>
      { kind := .immediate
        number
        immValue := some (unsignedOfWidth op.value op.dtypeSize)
        dtypeSize := op.dtypeSize
        reg_isSome := nofun
        addr_isSome := nofun
        imm_isSome := fun _ => rfl }
  | .mem =>
      { kind := .memDirect
        number
        addr := some op.addr
        dtypeSize := op.dtypeSize
        segmentName
        reg_isSome := nofun
        addr_isSome := fun _ => rfl
        imm_isSome := nofun }
  | .phrase =>
      let (baseReg, indexReg, scale) :=
        memoryOperandAddressing op.reg (op.specflag1 ≠ 0) op.specflag2 (rexBits insn.insnpref)
      { kind := .memPhrase
        number
        reg := some baseReg
        indexReg
        scale
        dtypeSize := op.dtypeSize
        segmentName }
  | .displ =>
      let (baseReg, indexReg, scale) :=
        memoryOperandAddressing op.reg (op.specflag1 ≠ 0) op.specflag2 (rexBits insn.insnpref)
      { kind := .memDispl
        number
        reg := some baseReg
        indexReg
        scale
        disp := signExtend op.addr
        dtypeSize := op.dtypeSize
        segmentName
        reg_isSome := nofun
        addr_isSome := nofun
        imm_isSome := nofun }
  | .far => { kind := .far, number, addr := some op.addr, dtypeSize := op.dtypeSize }
  | .near => { kind := .near, number, addr := some op.addr, dtypeSize := op.dtypeSize }
  | .void | .idpspec => { kind := .special, number, dtypeSize := op.dtypeSize }

/-- The index register that the encoding of a memory operand names. -/
def IdaOp.encodedIndex (op : IdaOp) (insn : IdaInsn) : Option Nat :=
  if op.specflag1 = 0 then none else sibIndex op.specflag2 (rexBits insn.insnpref)

/-- The types of operands that can carry a SIB byte. -/
def IdaOpType.IsMemory (type : IdaOpType) : Prop := type = .mem ∨ type = .phrase ∨ type = .displ

end IDAnalysister
