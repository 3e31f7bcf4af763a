import IDAnalysister.Library.Loop
import IDAnalysister.Locators.Builtins

/-!
# The forward engine

`core/engine_forward.py`: a worklist over the blocks of a function that pushes the
seeded register through one abstract state a block, and the per-instruction transfer
function. Loops are bounded as in the backward resolver: `none` means that a bound was
hit. A limit is `none` when it is unbounded (`math.inf`).
-/

namespace IDAnalysister

structure ForwardSymbolicEngine where
  port : IdaPort
  registry : LocatorRegistry
  maxInstructions : Option Nat := some 4000
  maxBlockVisits : Option Nat := some 64
  loopWidenAfter : Nat := 3

/-- `count > limit`. -/
def exceeds (limit : Option Nat) (count : Nat) : Bool := limit.any (· < count)

namespace AbstractState

/-- `_join_states`: every key of any of the states, joined over all of them. -/
def joinStates (states : List AbstractState) : AbstractState where
  registers := Finmap.tabulate (states.foldr (fun s keys => s.registers.keys ∪ keys) ∅) fun reg =>
    .joinAll (states.map (·.getRegister reg))
  stack := Finmap.tabulate (states.foldr (fun s keys => s.stack.keys ∪ keys) ∅) fun key =>
    .joinAll (states.map (·.getStack key))

/-- What `_widen` leaves at one key. -/
def pin (prev new : ValueLattice) : ValueLattice :=
  if prev = new then prev else .unknown' .loopNonConvergent

/-- `_widen`. -/
def widen (prev new : AbstractState) : AbstractState where
  registers := Finmap.tabulate (prev.registers.keys ∪ new.registers.keys) fun reg =>
    pin (prev.getRegister reg) (new.getRegister reg)
  stack := Finmap.tabulate (prev.stack.keys ∪ new.stack.keys) fun key =>
    pin (prev.getStack key) (new.getStack key)

end AbstractState

namespace ForwardSymbolicEngine

variable (self : ForwardSymbolicEngine)

/-! ## The transfer function -/

/-- `_stack_key`: the cell a memory operand names, if it names a fixed one. -/
def stackKey (op : Operand) (ea funcEa : Nat) : Option StackKey :=
  if op.kind = .memDispl ∨ op.kind = .memPhrase then
    match op.reg with
    | none => none
    | some base =>
        if op.hasIndex ∨ op.hasSegment then none
        else if self.port.stackPointerReg = some base then
          (self.port.getSpDelta funcEa ea).map fun delta => .sp (delta + op.disp)
        else if self.port.framePointerReg = some base then some (.fp op.disp)
        else none
  else none

def isStackRelative (op : Operand) : Bool :=
  op.reg.any fun base => self.port.stackPointerReg = some base ∨
    self.port.framePointerReg = some base

/-- `_invalidate_possibly_aliased_stack`. -/
def invalidatePossiblyAliasedStack (op : Operand) (s : AbstractState) : AbstractState :=
  if self.isStackRelative op then s.setAllStack (.unknown' .mutatedMemoryContent) else s

def otherOperand (i : Instruction) (exclude : Operand) : Option Operand :=
  i.operands.find? (·.number ≠ exclude.number)

def valueOfSource (op : Option Operand) (s : AbstractState) : ValueLattice :=
  match op with
  | none => .unknown' .unsupportedOperandShape
  | some op =>
      if op.kind = .reg then s.getRegister op.reg
      else if op.kind = .immediate then .concrete (.ofOption op.immValue) .int
      else .unknown' .unsupportedOperandShape

def registerDestination (i : Instruction) : Option Operand :=
  i.operands.find? fun op => op.kind = .reg ∧ i.isWritten op.number

/-- `_apply_memory_store`. -/
def applyMemoryStore (i : Instruction) (op : Operand) (s : AbstractState) (funcEa : Nat) :
    AbstractState :=
  match self.stackKey op i.ea funcEa with
  | none => self.invalidatePossiblyAliasedStack op s
  | some key =>
      if i.isPureDefinitionOf op.number then
        s.setStack key (valueOfSource (otherOperand i op) s)
      else s.setStack key (.unknown' .unsupportedInstruction)

/-- `_apply_memory_load`. -/
def applyMemoryLoad (i : Instruction) (op : Operand) (s : AbstractState) (funcEa : Nat) :
    AbstractState :=
  match registerDestination i with
  | none => s
  | some dst =>
      if i.isPureDefinitionOf dst.number then
        match self.stackKey op i.ea funcEa with
        | none => s.invalidateRegister dst.reg .unsupportedInstruction
        | some key => s.setRegister dst.reg (s.getStack key)
      else s.invalidateRegister dst.reg .unsupportedInstruction

/-- `_apply_call`. -/
def applyCall (i : Instruction) (s : AbstractState) : AbstractState :=
  let s := self.port.callClobberedRegisters.foldl
    (fun s reg => s.invalidateRegister (some reg) .indirectControlFlow) s
  match self.port.returnValueReg with
  | none => s
  | some reg => s.setRegister (some reg) (.symbolic ("ret(" ++ hex i.ea ++ ")"))

/-- `_apply_locator`: a locator that raises leaves its writes invalidated. -/
def applyLocator (l : Locator) (i : Instruction) (s : AbstractState) : AbstractState :=
  match l.runForward i s with
  | .ok s => s
  | .error s => invalidateWrittenRegisters i s

/-- The last memory operand that the instruction writes (`written`), or does not. -/
def memoryOperand (i : Instruction) (written : Bool) : Option Operand :=
  (i.operands.filter fun op => op.isMemory ∧ i.isWritten op.number = written).getLast?

/-- The part of `_step_transfer` that looks at operand shapes. -/
def transferByShape (i : Instruction) (s : AbstractState) (funcEa : Nat) : AbstractState :=
  match memoryOperand i true, memoryOperand i false with
  | some dst, _ => self.applyMemoryStore i dst s funcEa
  | none, some src => self.applyMemoryLoad i src s funcEa
  | none, none =>
      match self.registry.findMatch i with
      | some l => applyLocator l i s
      | none => invalidateWrittenRegisters i s

/-- `_step_transfer`. -/
def stepTransfer (i : Instruction) (s : AbstractState) (funcEa : Nat) : AbstractState :=
  if i.isCall then self.applyCall i s
  else
    match self.registry.findMatch i with
    | some l =>
        if l.definesForwardSemantics then applyLocator l i s
        else self.transferByShape i s funcEa
    | none => self.transferByShape i s funcEa

/-- What `_invalidate_partial_register_writes` does for one operand. -/
def invalidatePartial (i : Instruction) (s : AbstractState) (op : Operand) : AbstractState :=
  if op.kind = .reg ∧ i.isWritten op.number then
    match op.reg.bind (self.port.registerView · op.dtypeSize) with
    | none => s
    | some view =>
        if view.writeDefinesParent then s
        else
          let s := s.invalidateRegister (some view.parent) .unsupportedOperandShape
          if op.reg ≠ some view.parent then s.invalidateRegister op.reg .unsupportedOperandShape
          else s
  else s

def invalidatePartialRegisterWrites (i : Instruction) (s : AbstractState) : AbstractState :=
  i.operands.foldl (self.invalidatePartial i) s

def step (i : Instruction) (s : AbstractState) (funcEa : Nat) : AbstractState :=
  self.invalidatePartialRegisterWrites i (self.stepTransfer i s funcEa)

/-! ## Simulating a block -/

/-- The loop of `_simulate_block` up to `stop`: the state, the instructions counted so
far, and whether the instruction limit was exceeded. -/
def simulate (funcEa stop : Nat) : Nat → Nat → Nat → AbstractState →
    Option (AbstractState × Nat × Bool)
  | 0, ea, used, s => if stop ≤ ea then some (s, used, false) else none
  | bound + 1, ea, used, s =>
      if stop ≤ ea then some (s, used, false)
      else
        match self.port.decodeAt ea with
        | none => simulate funcEa stop bound (ea + 1) used s
        | some i =>
            if exceeds self.maxInstructions (used + 1) then some (s, used + 1, true)
            else simulate funcEa stop bound i.nextEa (used + 1) (self.step i s funcEa)

/-- `_simulate_block`; the loop ends at the earlier of the block's end and `stopBefore`. -/
def simulateBlock (bound funcEa : Nat) (block : BasicBlockInfo) (s : AbstractState) (used : Nat)
    (stopBefore : Option Nat := none) : Option (AbstractState × Nat × Bool) :=
  let stop := match stopBefore with
    | none => block.endEa
    | some ea => min block.endEa ea
  self.simulate funcEa stop bound block.startEa used s

/-! ## The worklist -/

/-- The dictionaries and counters of `resolve_at`. -/
structure WalkState where
  worklist : List Nat
  inStates : Nat → Option AbstractState := fun _ => none
  outStates : Nat → Option AbstractState := fun _ => none
  visitCounts : Nat → Nat := fun _ => 0
  instrUsed : Nat := 0
  budgetExceeded : Bool := false

/-- What a walk is about: the graph, its entry block and the state seeded there. -/
structure Walk where
  funcEa : Nat
  cfg : CfgModel
  entry : BasicBlockInfo
  initial : AbstractState

/-- `_join_predecessor_states`. -/
def joinPredecessorStates (walk : Walk) (block : BasicBlockInfo)
    (outStates : Nat → Option AbstractState) : Option AbstractState :=
  if block.startEa = walk.entry.startEa then some walk.initial
  else
    let available := (walk.cfg.predecessors block).filterMap fun p => outStates p.startEa
    if available = [] then none else some (.joinStates available)

/-- The state that a visit computes for a block, after widening. -/
def computedIn (prev : Option AbstractState) (joined : AbstractState) (visits : Nat) :
    AbstractState :=
  match prev with
  | none => joined
  | some prev => if self.loopWidenAfter < visits then prev.widen joined else joined

/-- One pass of the worklist loop. -/
def visit (bound : Nat) (walk : Walk) (w : WalkState) : Option WalkState :=
  match w.worklist with
  | [] => some w
  | start :: rest =>
      match walk.cfg.byStart start with
      | none => some { w with worklist := rest }
      | some block =>
          let visits := w.visitCounts start + 1
          let counts := Function.update w.visitCounts start visits
          if exceeds self.maxBlockVisits visits then
            some { w with worklist := rest, visitCounts := counts }
          else
            match joinPredecessorStates walk block w.outStates with
            | none => some { w with worklist := rest, visitCounts := counts }
            | some joined =>
                let computed := self.computedIn (w.inStates start) joined visits
                if w.inStates start = some computed then
                  some { w with worklist := rest, visitCounts := counts }
                else do
                  let (out, used, exceeded) ←
                    self.simulateBlock bound walk.funcEa block computed w.instrUsed
                  some
                    { worklist :=
                        if exceeded then rest
                        else rest ++ (walk.cfg.successors block).map (·.startEa)
                      inStates := Function.update w.inStates start (some computed)
                      outStates := Function.update w.outStates start (some out)
                      visitCounts := counts
                      instrUsed := used
                      budgetExceeded := exceeded }

/-- The loop condition, negated. -/
def finished (w : WalkState) : Bool := w.worklist.isEmpty || w.budgetExceeded

/-- The state in which `resolve_at` seeds the tracked register. -/
def seed (initialReg : Nat) (argIndex : Int) : AbstractState :=
  AbstractState.empty.setRegister (some initialReg) (.symbolic ("arg" ++ toString argIndex))

def Walk.start (walk : Walk) : WalkState := { worklist := [walk.entry.startEa] }

/-- The worklist loop of `resolve_at`. -/
def runWorklist (bound : Nat) (walk : Walk) : Option WalkState :=
  Loop.run finished (self.visit bound walk) bound walk.start

/-- The part of `resolve_at` behind the loop. -/
def readTarget (bound : Nat) (walk : Walk) (w : WalkState) (target : BasicBlockInfo)
    (targetEa initialReg : Nat) : Option ValueLattice :=
  if w.budgetExceeded then
    some (.unknown .budgetExceeded
      "forward walk exceeded its instruction budget before converging")
  else
    match w.inStates target.startEa with
    | none => some (.unknown .noDefinitionFound "target block never reached in forward walk")
    | some targetIn => do
        let (final, _, exceeded) ←
          self.simulateBlock bound walk.funcEa target targetIn 0 (some targetEa)
        if exceeded then
          some (.unknown .budgetExceeded "target block exceeded its instruction budget")
        else some (final.getRegister (some initialReg))

def resolveAt (bound funcEa : Nat) (argIndex : Int) (targetEa : Nat) (initialReg : Option Nat) :
    Option ValueLattice :=
  match initialReg with
  | none =>
      some (.unknown .unsupportedOperandShape
        "forward tracking of stack-passed arguments is not supported")
  | some reg =>
      let cfg := buildCfg self.port funcEa
      if cfg.isEmpty then some (.unknown .noDefinitionFound "no CFG for function")
      else
        match cfg.blockContaining funcEa, cfg.blockContaining targetEa with
        | some entry, some target => do
            let walk : Walk := ⟨funcEa, cfg, entry, seed reg argIndex⟩
            let w ← self.runWorklist bound walk
            self.readTarget bound walk w target targetEa reg
        | _, _ => some (.unknown .noDefinitionFound "entry or target not within function")

end ForwardSymbolicEngine

end IDAnalysister
