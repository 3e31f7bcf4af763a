import IDAnalysister.Values

/-!
# Instructions and operands

The architecture-neutral instruction view of `core/insn_model.py`. Only the fields
that the engines and locators read are kept. An `Operand` carries the facts every
adapter establishes when it builds one: a register operand names its register, an
absolute operand its address and an immediate operand its value.
-/

namespace IDAnalysister

inductive OperandKind
  | void
  | reg
  | immediate
  | memDirect
  | memPhrase
  | memDispl
  | far
  | near
  | special
  deriving DecidableEq, Repr

structure Operand where
  kind : OperandKind
  /-- 0-based operand index within the instruction. -/
  number : Nat
  /-- The register of a register operand, or the base of a phrase or displacement. -/
  reg : Option Nat := none
  indexReg : Option Nat := none
  scale : Nat := 1
  disp : Int := 0
  addr : Option Int := none
  immValue : Option Int := none
  /-- Operand size in bytes; 0 when it could not be determined. -/
  dtypeSize : Nat := 0
  segmentName : Option String := none
  reg_isSome : kind = .reg → reg.isSome = true := by simp
  addr_isSome : kind = .memDirect → addr.isSome = true := by simp
  imm_isSome : kind = .immediate → immValue.isSome = true := by simp
  deriving DecidableEq

namespace Operand

def isMemory (op : Operand) : Bool :=
  op.kind = .memDirect ∨ op.kind = .memPhrase ∨ op.kind = .memDispl

def hasIndex (op : Operand) : Bool := op.indexReg.isSome

/-- The truth value of `op.segment_name`: neither absent nor empty. -/
def hasSegment (op : Operand) : Bool := op.segmentName.any (· ≠ "")

theorem exists_reg {op : Operand} (h : op.kind = .reg) : ∃ r, op.reg = some r :=
  Option.isSome_iff_exists.mp (op.reg_isSome h)

theorem exists_imm {op : Operand} (h : op.kind = .immediate) : ∃ n, op.immValue = some n :=
  Option.isSome_iff_exists.mp (op.imm_isSome h)

theorem isMemory_of_reg {op : Operand} (h : op.kind = .reg) : op.isMemory = false := by
  simp [isMemory, h]

theorem isMemory_of_immediate {op : Operand} (h : op.kind = .immediate) :
    op.isMemory = false := by
  simp [isMemory, h]

theorem kind_ne_reg_of_isMemory {op : Operand} (h : op.isMemory = true) : op.kind ≠ .reg := by
  intro same
  rw [isMemory_of_reg same] at h
  cases h

end Operand

structure Instruction where
  ea : Nat
  /-- Lowercase canonical mnemonic. -/
  mnem : String
  size : Nat
  operands : List Operand := []
  /-- Parallel to `operands`: which of them the instruction writes. -/
  operandWritten : List Bool := []
  /-- Parallel to `operands`: which of them the instruction reads. -/
  operandRead : List Bool := []
  isControlTransfer : Bool := false
  deriving DecidableEq

namespace Instruction

def nextEa (i : Instruction) : Nat := i.ea + i.size

/-- The first operand with a given number. -/
def operand (i : Instruction) (number : Nat) : Option Operand :=
  i.operands.find? (·.number = number)

/-- The flag that stands beside the first operand with a given number. -/
def flag (i : Instruction) (flags : List Bool) (number : Nat) : Bool :=
  match (i.operands.zip flags).find? (·.1.number = number) with
  | some (_, value) => value
  | none => false

def isWritten (i : Instruction) (number : Nat) : Bool := i.flag i.operandWritten number

def isRead (i : Instruction) (number : Nat) : Bool := i.flag i.operandRead number

/-- Written without being read, and the read flags were populated. -/
def isPureDefinitionOf (i : Instruction) (number : Nat) : Bool :=
  i.isWritten number && !i.isRead number && !i.operandRead.isEmpty

/-- `mnem.startswith("call")`. -/
def isCall (i : Instruction) : Bool := startsWith i.mnem "call"

theorem operand_mem {i : Instruction} {number : Nat} {op : Operand}
    (h : i.operand number = some op) : op ∈ i.operands :=
  List.mem_of_find?_eq_some h

theorem operand_number {i : Instruction} {number : Nat} {op : Operand}
    (h : i.operand number = some op) : op.number = number := by
  have found := List.find?_some h
  simpa using found

end Instruction

end IDAnalysister
