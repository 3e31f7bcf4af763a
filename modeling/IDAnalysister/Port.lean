import IDAnalysister.Instruction

/-!
# The database port and the control-flow graph

The part of `adapters/ida_port.py` that the two engines consult, with the plain
data it returns (`core/ida_types.py`), and the graph view of a function
(`core/cfg_model.py`). A port is a parameter everywhere: what an engine needs of it
is stated as a hypothesis where it is used.
-/

namespace IDAnalysister

structure BasicBlockInfo where
  startEa : Nat
  /-- Exclusive. -/
  endEa : Nat
  succStarts : List Nat
  predStarts : List Nat
  deriving DecidableEq, Repr

/-- One addressable view of a processor register. -/
structure RegisterView where
  parent : Nat
  bitOffset : Nat
  bitSize : Nat
  parentBitSize : Nat
  /-- Writing this view leaves the whole parent with a known value. -/
  writeDefinesParent : Bool := false
  deriving DecidableEq, Repr

structure IdaPort where
  decodeAt : Nat → Option Instruction
  /-- Previous instruction head strictly before the first address and not below the second. -/
  prevHead : Nat → Nat → Option Nat
  getFuncStart : Nat → Option Nat
  getFlowchartBlocks : Nat → List BasicBlockInfo
  readInt : Int → Nat → Option Int
  getSpDelta : Nat → Nat → Option Int
  pointerSize : Nat
  stackPointerReg : Option Nat
  framePointerReg : Option Nat
  callClobberedRegisters : List Nat
  /-- The view named by a register number and an operand size (0: its own width). -/
  registerView : Nat → Nat → Option RegisterView
  returnValueReg : Option Nat

structure CfgModel where
  funcEa : Nat
  blocks : List BasicBlockInfo
  deriving DecidableEq, Repr

namespace CfgModel

def isEmpty (cfg : CfgModel) : Bool := cfg.blocks.isEmpty

/-- The dictionary from start addresses to blocks; a later block replaces an
earlier one that starts at the same address. -/
def byStart (cfg : CfgModel) (start : Nat) : Option BasicBlockInfo :=
  cfg.blocks.reverse.find? (·.startEa = start)

def blockContaining (cfg : CfgModel) (ea : Nat) : Option BasicBlockInfo :=
  cfg.blocks.find? fun block => block.startEa ≤ ea ∧ ea < block.endEa

def predecessors (cfg : CfgModel) (block : BasicBlockInfo) : List BasicBlockInfo :=
  block.predStarts.filterMap cfg.byStart

def successors (cfg : CfgModel) (block : BasicBlockInfo) : List BasicBlockInfo :=
  block.succStarts.filterMap cfg.byStart

theorem byStart_mem {cfg : CfgModel} {start : Nat} {block : BasicBlockInfo}
    (h : cfg.byStart start = some block) : block ∈ cfg.blocks := by
  simpa using List.mem_of_find?_eq_some h

theorem byStart_startEa {cfg : CfgModel} {start : Nat} {block : BasicBlockInfo}
    (h : cfg.byStart start = some block) : block.startEa = start := by
  simpa using List.find?_some h

theorem mem_predecessors {cfg : CfgModel} {block p : BasicBlockInfo} :
    p ∈ cfg.predecessors block ↔ ∃ start ∈ block.predStarts, cfg.byStart start = some p :=
  List.mem_filterMap

theorem mem_successors {cfg : CfgModel} {block s : BasicBlockInfo} :
    s ∈ cfg.successors block ↔ ∃ start ∈ block.succStarts, cfg.byStart start = some s :=
  List.mem_filterMap

end CfgModel

def buildCfg (port : IdaPort) (funcEa : Nat) : CfgModel :=
  ⟨funcEa, port.getFlowchartBlocks funcEa⟩

end IDAnalysister
