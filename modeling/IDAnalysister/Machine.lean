import IDAnalysister.Backward.Engine
import IDAnalysister.Layout
import IDAnalysister.Library.Transfer

/-!
# What the instructions of a function do

The instruction forms whose effect on registers and memory cells is modelled, each
with the word transfer it stands for. A form asks for what an adapter establishes:
two operands numbered 0 and 1, written flags that are exact, and registers that name
a whole register of `W` bits. A cell is named as `_memory_location` names it.
-/

namespace IDAnalysister

open Transfer

/-- A register, or a memory cell by the name the resolver gives it. -/
inductive Place
  | reg (r : Nat)
  | cell (k : MemoryKey)
  deriving DecidableEq

/-- The number names a whole register of `W` bits, or the port knows no layout. -/
def WholeReg (port : IdaPort) (W r : Nat) : Prop :=
  ∀ size view, size = 0 ∨ size * 8 = W → port.registerView r size = some view →
    view.parent = r ∧ view.bitOffset = 0 ∧ view.bitSize = W

/-- The operand is the whole register `r`. -/
structure RegOperand (port : IdaPort) (W : Nat) (op : Operand) (r : Nat) : Prop where
  kind : op.kind = .reg
  reg : op.reg = some r
  width : op.dtypeSize * 8 = W
  whole : WholeReg port W r

/-- The operand is an immediate that fits `W` bits. -/
structure ImmOperand (W : Nat) (op : Operand) (n : Int) : Prop where
  kind : op.kind = .immediate
  value : op.immValue = some n
  nonneg : 0 ≤ n
  lt : n < 2 ^ W

/-- The operand is the cell `k` of the frame or of static memory. -/
structure CellOperand (port : IdaPort) (funcEa ea : Nat) (op : Operand) (k : MemoryKey) :
    Prop where
  isMemory : op.isMemory = true
  noIndex : op.hasIndex = false
  noSegment : op.hasSegment = false
  location : operandLocation port op ea funcEa = some k
  space : k.1 = .abs ∨ k.1 = .sp ∨ k.1 = .fp

/-- The instruction has the operands `a` and `b`, with these written flags. -/
structure Pair (i : Instruction) (a b : Operand) (writesA writesB : Bool) : Prop where
  operands : i.operands = [a, b]
  first : a.number = 0
  second : b.number = 1
  flagA : i.isWritten 0 = writesA
  flagB : i.isWritten 1 = writesB

/-- Every register operand names a whole register. -/
def WholeOperands (port : IdaPort) (W : Nat) (i : Instruction) : Prop :=
  ∀ op ∈ i.operands, op.kind = .reg → ∃ r, RegOperand port W op r

/-- The places that the operands flagged as written may reach. -/
def Flagged (port : IdaPort) (funcEa : Nat) (i : Instruction) : Place → Prop
  | .reg r => ∃ op ∈ i.operands, op.kind = .reg ∧ i.isWritten op.number ∧ op.reg = some r
  | .cell k => (memoryFinding port i k funcEa).isSome

/-- What a call may change: the clobbered registers, and what it is flagged to write. -/
def CallChanges (port : IdaPort) (funcEa : Nat) (i : Instruction) (p : Place) : Prop :=
  (∃ r ∈ port.callClobberedRegisters, p = .reg r) ∨ Flagged port funcEa i p

/-- The forms that only touch registers. -/
inductive RegisterForm (port : IdaPort) (funcEa W : Nat) : Instruction → Op Place → Prop
  | movImm {i : Instruction} {a b : Operand} {d : Nat} {n : Int} :
    i.mnem = "mov" → Pair i a b true false → RegOperand port W a d → ImmOperand W b n →
    RegisterForm port funcEa W i (.const (.reg d) n)
  | movReg {i : Instruction} {a b : Operand} {d s : Nat} :
    i.mnem = "mov" → Pair i a b true false → RegOperand port W a d → RegOperand port W b s →
    RegisterForm port funcEa W i (.offset (.reg d) (.reg s) 0)
  | leaAddr {i : Instruction} {a b : Operand} {d : Nat} {n : Int} :
    i.mnem = "lea" → Pair i a b true false → RegOperand port W a d → b.kind = .memDirect →
    b.addr = some n → 0 ≤ n → n < 2 ^ W →
    RegisterForm port funcEa W i (.const (.reg d) n)
  | leaDispl {i : Instruction} {a b : Operand} {d s : Nat} :
    i.mnem = "lea" → Pair i a b true false → RegOperand port W a d →
    b.kind = .memDispl ∨ b.kind = .memPhrase → b.reg = some s → WholeReg port W s →
    b.hasIndex = false → RegisterForm port funcEa W i (.offset (.reg d) (.reg s) b.disp)
  | addImm {i : Instruction} {a b : Operand} {d : Nat} {n : Int} :
    i.mnem = "add" → Pair i a b true false → RegOperand port W a d → ImmOperand W b n →
    RegisterForm port funcEa W i (.offset (.reg d) (.reg d) n)
  | subImm {i : Instruction} {a b : Operand} {d : Nat} {n : Int} :
    i.mnem = "sub" → Pair i a b true false → RegOperand port W a d → ImmOperand W b n →
    RegisterForm port funcEa W i (.offset (.reg d) (.reg d) (-n))
  | zero {i : Instruction} {a b : Operand} {d : Nat} :
    i.mnem = "xor" ∨ i.mnem = "sub" → Pair i a b true false → RegOperand port W a d →
    RegOperand port W b d → RegisterForm port funcEa W i (.const (.reg d) 0)
  | xchg {i : Instruction} {a b : Operand} {d s : Nat} :
    i.mnem = "xchg" → Pair i a b true true → RegOperand port W a d → RegOperand port W b s →
    RegisterForm port funcEa W i (.swap (.reg d) (.reg s))
  | cmov {i : Instruction} {a b : Operand} {d : Nat} :
    startsWith i.mnem "cmov" → Pair i a b true false → RegOperand port W a d →
    RegisterForm port funcEa W i (.havoc (· = .reg d))
  | call {i : Instruction} : i.isCall → WholeOperands port W i →
    RegisterForm port funcEa W i (.havoc (CallChanges port funcEa i))
  /-- No locator matches, as for jumps: anything may stand in what is flagged. -/
  | unmatched {i : Instruction} : defaultRegistry.findMatch i = none → WholeOperands port W i →
    RegisterForm port funcEa W i (.havoc (Flagged port funcEa i))

/-- The modelled forms: those on registers, and moves to and from cells. A call is taken
not to write the cells of its caller. -/
inductive Form (port : IdaPort) (funcEa W : Nat) : Instruction → Op Place → Prop
  | register {i : Instruction} {op : Op Place} :
    RegisterForm port funcEa W i op → Form port funcEa W i op
  | storeImm {i : Instruction} {a b : Operand} {k : MemoryKey} {n : Int} :
    i.mnem = "mov" → Pair i a b true false → CellOperand port funcEa i.ea a k →
    ImmOperand W b n → Form port funcEa W i (.const (.cell k) n)
  | storeReg {i : Instruction} {a b : Operand} {k : MemoryKey} {s : Nat} :
    i.mnem = "mov" → Pair i a b true false → CellOperand port funcEa i.ea a k →
    RegOperand port W b s → Form port funcEa W i (.offset (.cell k) (.reg s) 0)
  | load {i : Instruction} {a b : Operand} {k : MemoryKey} {d : Nat} :
    i.mnem = "mov" → Pair i a b true false → RegOperand port W a d →
    CellOperand port funcEa i.ea b k → Form port funcEa W i (.offset (.reg d) (.cell k) 0)

namespace Pair

variable {i : Instruction} {a b : Operand} {wa wb : Bool}

theorem operand_zero (pair : Pair i a b wa wb) : i.operand 0 = some a := by
  simp [Instruction.operand, pair.operands, pair.first]

theorem operand_one (pair : Pair i a b wa wb) : i.operand 1 = some b := by
  simp [Instruction.operand, pair.operands, pair.first, pair.second]

end Pair

end IDAnalysister
