import IDAnalysister.Conventions
import IDAnalysister.Layout
import Mathlib.Data.List.Sort

/-!
# The in-memory port

`FakeIdaPort` (`adapters/fake_port.py`): a port built by hand from instructions, block
boundaries and a memory image, with a small register namespace in which every 8-bit
view has a number of its own. Its dictionaries are association lists.
-/

namespace IDAnalysister

structure FakeIdaPort where
  pointerSize : Nat := 8
  instructions : List Instruction
  /-- `func_ea ↦ end_ea`, in the order in which the functions were set. -/
  funcBounds : List (Nat × Nat)
  blocks : List (Nat × List BasicBlockInfo) := []
  /-- One byte an address. -/
  memory : List (Int × Nat) := []
  spDeltas : List ((Nat × Nat) × Int) := []

namespace FakeIdaPort

/-- `DEFAULT_REGISTERS`. -/
def defaultRegisters : List (String × Nat) :=
  [("eax", 0), ("ax", 0), ("rax", 0), ("ecx", 1), ("cx", 1), ("rcx", 1),
    ("edx", 2), ("dx", 2), ("rdx", 2), ("ebx", 3), ("bx", 3), ("rbx", 3),
    ("esp", 4), ("sp", 4), ("rsp", 4), ("ebp", 5), ("bp", 5), ("rbp", 5),
    ("esi", 6), ("si", 6), ("rsi", 6), ("edi", 7), ("di", 7), ("rdi", 7),
    ("r8", 8), ("r8d", 8), ("r9", 9), ("r9d", 9),
    ("al", 16), ("cl", 17), ("dl", 18), ("bl", 19),
    ("ah", 20), ("ch", 21), ("dh", 22), ("bh", 23), ("gs", 100), ("fs", 101)]

/-- `SUB_REGISTERS`: the 8-bit views, with their parent and bit offset. -/
def subRegisters : List (Nat × Nat × Nat) :=
  [(16, 0, 0), (17, 1, 0), (18, 2, 0), (19, 3, 0), (20, 0, 8), (21, 1, 8), (22, 2, 8), (23, 3, 8)]

variable (self : FakeIdaPort)

def register (name : String) : Option Nat := defaultRegisters.lookup name

/-- A later instruction at an address replaces an earlier one. -/
def decodeAt (ea : Nat) : Option Instruction :=
  self.instructions.reverse.find? (·.ea = ea)

def prevHead (ea minEa : Nat) : Option Nat :=
  ((self.instructions.map (·.ea)).filter fun e => minEa ≤ e ∧ e < ea).max?

def getFuncStart (ea : Nat) : Option Nat :=
  (self.funcBounds.find? fun bounds => bounds.1 ≤ ea ∧ ea < bounds.2).map (·.1)

def getFlowchartBlocks (funcEa : Nat) : List BasicBlockInfo :=
  (self.blocks.lookup funcEa).getD []

/-- Little-endian, `none` when a byte is unmapped. -/
def readInt (addr : Int) : Nat → Option Int
  | 0 => some 0
  | size + 1 => do
      let low ← self.memory.lookup addr
      let rest ← readInt (addr + 1) size
      some (low + 256 * rest)

def registerView (reg sizeBytes : Nat) : Option RegisterView :=
  let parentBits := self.pointerSize * 8
  match subRegisters.lookup reg with
  | some (parent, bitOffset) =>
      some { parent, bitOffset, bitSize := 8, parentBitSize := parentBits }
  | none =>
      if reg ∈ defaultRegisters.map (·.2) then
        let bitSize := if sizeBytes = 0 then parentBits else sizeBytes * 8
        some
          { parent := reg, bitOffset := 0, bitSize, parentBitSize := parentBits,
            writeDefinesParent := parentBits ≤ bitSize ∨ (bitSize = 32 ∧ parentBits = 64) }
      else none

def toPort : IdaPort where
  decodeAt := self.decodeAt
  prevHead := self.prevHead
  getFuncStart := self.getFuncStart
  getFlowchartBlocks := self.getFlowchartBlocks
  readInt := self.readInt
  getSpDelta funcEa ea := self.spDeltas.lookup (funcEa, ea)
  pointerSize := self.pointerSize
  stackPointerReg := register (if self.pointerSize = 8 then "rsp" else "esp")
  framePointerReg := register (if self.pointerSize = 8 then "rbp" else "ebp")
  callClobberedRegisters :=
    (if self.pointerSize = 8 then ["rax", "rcx", "rdx", "r8", "r9"]
      else ["eax", "ecx", "edx"]).filterMap register
  registerView := self.registerView
  returnValueReg := register (if self.pointerSize = 8 then "rax" else "eax")

/-- Calls and bare jumps that name the address in an operand. -/
def codeRefsTo (ea : Nat) : List Nat :=
  (((self.instructions.map (·.ea)).dedup).filter fun src =>
    (self.decodeAt src).any fun i =>
      (startsWith i.mnem "call" || startsWith i.mnem "jmp") &&
        i.operands.any fun op => op.addr = some (ea : Int)).insertionSort (· ≤ ·)

def toFacadePort (prototypes : List (Nat × FunctionPrototype) := []) : FacadePort where
  toIdaPort := self.toPort
  codeRefsTo := self.codeRefsTo
  registerByName name := register name.toLower
  getPrototype funcEa := prototypes.lookup funcEa

/-! ## Builders

The instruction builders of `tests/unit/conftest.py`, with its defaults: operands are
four bytes wide, and operand 0 alone is written. -/

def reg (number register : Nat) (size : Nat := 4) : Operand where
  kind := .reg
  number
  reg := some register
  dtypeSize := size

def imm (number : Nat) (value : Int) (size : Nat := 4) : Operand where
  kind := .immediate
  number
  immValue := some value
  dtypeSize := size

def memDirect (number : Nat) (addr : Int) (size : Nat := 4) : Operand where
  kind := .memDirect
  number
  addr := some addr
  dtypeSize := size

def memDispl (number baseReg : Nat) (disp : Int) (size : Nat := 4) : Operand where
  kind := .memDispl
  number
  reg := some baseReg
  disp
  dtypeSize := size

/-- `insn` with the default flags. -/
def insn (ea : Nat) (mnem : String) (size : Nat) (operands : List Operand) : Instruction where
  ea
  mnem
  size
  operands
  operandWritten := operands.zipIdx.map fun (_, k) => k = 0
  operandRead := operands.zipIdx.map fun (_, k) => k ≠ 0
  isControlTransfer := startsWith mnem "call" || startsWith mnem "j" || startsWith mnem "ret"

/-- A push: its operand is read only, and the stack cell it writes is not an operand. -/
def push (ea size : Nat) (op : Operand) : Instruction :=
  { insn ea "push" size [op] with
    operandWritten := [false]
    operandRead := [true] }

/-- A jump or a call: its target operand is read only. -/
def jump (ea : Nat) (mnem : String) (size : Nat) (target : Int) : Instruction :=
  { insn ea mnem size [memDirect 0 target] with
    operandWritten := [false]
    operandRead := [true] }

end FakeIdaPort

/-! ## A definition before a loop

The graph of `test_register_set_before_a_loop_resolves_at_a_use_inside_it`. -/

namespace CountedLoop

def setEsi : Instruction :=
  FakeIdaPort.insn 0x401000 "mov" 5 [FakeIdaPort.reg 0 6, FakeIdaPort.imm 1 0x404000]

def back : Instruction := FakeIdaPort.jump 0x401005 "jmp" 2 0x401005

def port : IdaPort := FakeIdaPort.toPort
  { pointerSize := 4
    instructions := [setEsi, back]
    funcBounds := [(0x401000, 0x401007)]
    blocks := [(0x401000, [⟨0x401000, 0x401005, [0x401005], []⟩,
      ⟨0x401005, 0x401007, [0x401005], [0x401000, 0x401005]⟩])] }

def graph : ConsistentCfg port 0x401000 where
  tile b := if b.startEa = 0x401000 then [setEsi] else [back]
  entry := ⟨0x401000, 0x401005, [0x401005], []⟩
  entry_mem := by decide
  entry_startEa := rfl
  nonempty := by decide
  disjoint := by decide
  converse := by decide
  tiled := by decide
  decoded := by decide
  heads := by decide
  owner := by decide

theorem once : graph.PathTo 0x401005 [setEsi, back] := by
  have entered : (⟨0x401005, 0x401007, [0x401005], [0x401000, 0x401005]⟩ : BasicBlockInfo) ∈
      graph.cfg.successors graph.entry := by decide
  have again : (⟨0x401005, 0x401007, [0x401005], [0x401000, 0x401005]⟩ : BasicBlockInfo) ∈
      graph.cfg.successors ⟨0x401005, 0x401007, [0x401005], [0x401000, 0x401005]⟩ := by decide
  exact .intro (.step (.step .entry entered) again) (by decide) (by decide)

end CountedLoop

/-! ## A definition that only the back edge passes -/

namespace EntryLoop

def setEax : Instruction :=
  FakeIdaPort.insn 0x401000 "mov" 5 [FakeIdaPort.reg 0 0, FakeIdaPort.imm 1 5]

def back : Instruction := FakeIdaPort.jump 0x401005 "jmp" 2 0x401000

/-- The function is one block, which jumps back to its start. -/
def block : BasicBlockInfo := ⟨0x401000, 0x401007, [0x401000], [0x401000]⟩

def port : IdaPort := FakeIdaPort.toPort
  { pointerSize := 4
    instructions := [setEax, back]
    funcBounds := [(0x401000, 0x401007)]
    blocks := [(0x401000, [block])] }

def graph : ConsistentCfg port 0x401000 where
  tile _ := [setEax, back]
  entry := block
  entry_mem := by decide
  entry_startEa := rfl
  nonempty := by decide
  disjoint := by decide
  converse := by decide
  tiled := by decide
  decoded := by decide
  heads := by decide
  owner := by decide

theorem start : graph.PathTo 0x401000 [] := .intro .entry (by decide) (by decide)

end EntryLoop

end IDAnalysister
