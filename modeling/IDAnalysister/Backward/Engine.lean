import IDAnalysister.Locators.Builtins

/-!
# The backward resolver

`core/engine_backward.py`. A query is a program over the resolver's effects: it
spends its budget, fetches instructions through the cache, asks for the owning
function and its graph, and calls locators that may call it back. The program does
not know the budget, so a statement about all of its executions is a statement
about every budget; `handler` is the interpretation that counts.

The register walk and the memory walk of the source are the same search with
different results at a block without predecessors and at a join. `walkBlock` and
`scanBack` are that search; `registerPaths` and `memoryPaths` are the two instances.

Nested callbacks and loops recurse on a bound, and `diverge` marks the bound being
hit. `Backward/Budget.lean` shows that the bound of `BackwardResolver.fuel` is never
hit and that a larger one changes nothing.
-/

namespace IDAnalysister

open Effect

/-! ## Effects of a query -/

/-- Points of a run that are only counted: a locator's `extract` is entered, the
predecessors of a block are expanded. -/
inductive Mark
  | extract
  | expand
  deriving DecidableEq

inductive ResolverOp
  | step
  | stepBlock
  | get (ea : Nat)
  | funcEaFor (ea : Nat)
  | cfgFor (funcEa : Nat)
  | mark (m : Mark)

abbrev Resolver : Signature where
  Op := ResolverOp
  Ans
    | .step => Bool
    | .stepBlock => Bool
    | .get _ => Option Instruction
    | .funcEaFor _ => Option Nat
    | .cfgFor _ => CfgModel
    | .mark _ => Unit

abbrev Query := Prog Resolver

namespace Query

def step : Query Bool := Prog.perform (S := Resolver) ResolverOp.step

def stepBlock : Query Bool := Prog.perform (S := Resolver) ResolverOp.stepBlock

/-- `self.cache.get(ea)`. -/
def get (ea : Nat) : Query (Option Instruction) :=
  Prog.perform (S := Resolver) (ResolverOp.get ea)

def funcEaFor (ea : Nat) : Query (Option Nat) :=
  Prog.perform (S := Resolver) (ResolverOp.funcEaFor ea)

def cfgFor (funcEa : Nat) : Query CfgModel :=
  Prog.perform (S := Resolver) (ResolverOp.cfgFor funcEa)

def mark (m : Mark) : Query Unit := Prog.perform (S := Resolver) (ResolverOp.mark m)

variable {α : Type}

@[simp] theorem step_bind (f : Bool → Query α) : step.bind f = .call .step f := rfl

@[simp] theorem stepBlock_bind (f : Bool → Query α) : stepBlock.bind f = .call .stepBlock f := rfl

@[simp] theorem get_bind (ea : Nat) (f : Option Instruction → Query α) :
    (get ea).bind f = .call (.get ea) f := rfl

@[simp] theorem funcEaFor_bind (ea : Nat) (f : Option Nat → Query α) :
    (funcEaFor ea).bind f = .call (.funcEaFor ea) f := rfl

@[simp] theorem cfgFor_bind (funcEa : Nat) (f : CfgModel → Query α) :
    (cfgFor funcEa).bind f = .call (.cfgFor funcEa) f := rfl

@[simp] theorem mark_bind (m : Mark) (f : Unit → Query α) :
    (mark m).bind f = .call (.mark m) f := rfl

end Query

/-- `ResolutionBudget`. -/
structure ResolutionBudget where
  maxSteps : Nat := 200
  maxBlocks : Nat := 64
  stepsUsed : Nat := 0
  blocksUsed : Nat := 0
  deriving DecidableEq, Repr

namespace ResolutionBudget

def step (b : ResolutionBudget) : Bool × ResolutionBudget :=
  (b.stepsUsed + 1 ≤ b.maxSteps, { b with stepsUsed := b.stepsUsed + 1 })

def stepBlock (b : ResolutionBudget) : Bool × ResolutionBudget :=
  (b.blocksUsed + 1 ≤ b.maxBlocks, { b with blocksUsed := b.blocksUsed + 1 })

end ResolutionBudget

/-- Answer a query's effects from a port, counting against a budget. The caches of
the source return what the port returns. -/
def handler (port : IdaPort) : Prog.Handler Resolver ResolutionBudget
  | .step, b => b.step
  | .stepBlock, b => b.stepBlock
  | .get ea, b => (port.decodeAt ea, b)
  | .funcEaFor ea, b => (port.getFuncStart ea, b)
  | .cfgFor funcEa, b => (buildCfg port funcEa, b)
  | .mark _, b => ((), b)

def budgetExceeded : ValueLattice := .unknown' .budgetExceeded

/-! ## The search over a block and its predecessors -/

/-- How a walk reports a path and joins paths. -/
structure Paths (ρ : Type) where
  ofValue : ValueLattice → ρ
  /-- The path came back to a block it had already scanned. -/
  cycle : ρ
  /-- The path reached a block without predecessors. -/
  noPredecessor : ρ
  join : List ρ → ρ

/-- Scan instruction heads backward from `ea` down to `lo`. `find` says whether an
instruction is a definition and, if so, how to compute its value; `none` means that
the heads were exhausted. -/
def scanBack (port : IdaPort) (find : Instruction → Option (Query ValueLattice)) (lo : Nat) :
    Nat → Option Nat → Query (Option ValueLattice)
  | _, none => pure none
  | 0, some _ => .diverge
  | bound + 1, some ea => do
      let ok ← Query.step
      if ok then
        let fetched ← Query.get ea
        match fetched.bind find with
        | some definition =>
            let value ← definition
            pure (some value)
        | none => scanBack port find lo bound (port.prevHead ea lo)
      else pure (some budgetExceeded)

/-- Walk a block backward from `boundary`, then its predecessors. `loops` bounds the
scan of one block, the structural argument the nesting of blocks. -/
def walkBlock {ρ : Type} (paths : Paths ρ) (port : IdaPort) (cfg : CfgModel)
    (find : Instruction → Option (Query ValueLattice)) (loops : Nat) :
    Nat → Nat → BasicBlockInfo → List Nat → Query ρ
  | 0, _, _, _ => .diverge
  | bound + 1, boundary, block, visited => do
      let scanned ← scanBack port find block.startEa loops (port.prevHead boundary block.startEa)
      match scanned with
      | some value => pure (paths.ofValue value)
      | none =>
          if block.startEa ∈ visited then pure paths.cycle
          else
            let preds := cfg.predecessors block
            if preds = [] then pure paths.noPredecessor
            else do
              let ok ← Query.stepBlock
              if ok then
                let _ ← Query.mark .expand
                let results ← Prog.traverse
                  (fun pred => walkBlock paths port cfg find loops bound pred.endEa pred
                    (block.startEa :: visited)) preds
                pure (paths.join results)
              else pure (paths.ofValue budgetExceeded)

/-- What the register walk reports for a path. -/
inductive RegisterPath
  | value (v : ValueLattice)
  | cycle
  deriving DecidableEq

def RegisterPath.value? : RegisterPath → Option ValueLattice
  | value v => some v
  | cycle => none

/-- Cycle-closing paths are dropped before joining. -/
def joinRegisterPaths (results : List RegisterPath) : RegisterPath :=
  match results.filterMap RegisterPath.value? with
  | [] => .cycle
  | informative => .value (.joinAll informative)

def registerPaths : Paths RegisterPath where
  ofValue := .value
  cycle := .cycle
  noPredecessor := .value (.unknown' .noDefinitionFound)
  join := joinRegisterPaths

/-- What the memory walk reports for a path. -/
inductive MemoryPath
  | value (v : ValueLattice)
  | notFound
  | cycle
  deriving DecidableEq

def MemoryPath.value? : MemoryPath → Option ValueLattice
  | value v => some v
  | _ => none

def joinMemoryPaths (results : List MemoryPath) : MemoryPath :=
  let informative := results.filter (· ≠ .cycle)
  if informative = [] then .cycle
  else
    let found := informative.filterMap MemoryPath.value?
    if found = [] then .notFound
    else if found.length ≠ informative.length then
      .value (.unknown .divergentPaths
        "memory location defined on some incoming paths but not others")
    else .value (.joinAll found)

def memoryPaths : Paths MemoryPath where
  ofValue := .value
  cycle := .cycle
  noPredecessor := .notFound
  join := joinMemoryPaths

/-! ## What counts as a definition -/

/-- The decision of a matching function: interpret an operand, or report a value. -/
inductive Finding
  | interpret (operand : Nat)
  | report (value : ValueLattice)
  deriving DecidableEq

def isCallClobbered (port : IdaPort) (reg : Nat) : Bool :=
  reg ∈ port.callClobberedRegisters ∨
    (port.registerView reg 0).any fun view => view.parent ∈ port.callClobberedRegisters

/-- The operand loop of `_match_register_definition`. -/
def registerOperandFinding (port : IdaPort) (i : Instruction) (reg : Nat) :
    List Operand → Option Finding
  | [] => none
  | op :: ops =>
      if op.kind = .reg ∧ i.isWritten op.number then
        match port.registerView reg 0, op.reg.bind (port.registerView · op.dtypeSize) with
        | some query, some write =>
            if write.parent ≠ query.parent then registerOperandFinding port i reg ops
            else if write.writeDefinesParent ∨
                (write.bitOffset = 0 ∧ query.bitSize ≤ write.bitSize) then
              some (.interpret op.number)
            else
              some (.report (.unknown .unsupportedOperandShape
                (i.mnem ++ " at " ++ hex i.ea ++ " writes only bits [" ++
                  toString write.bitOffset ++ ", " ++
                  toString (write.bitOffset + write.bitSize) ++ ") of the tracked register")))
        | _, _ =>
            -- no layout information: raw register numbers
            if op.reg = some reg then some (.interpret op.number)
            else registerOperandFinding port i reg ops
      else registerOperandFinding port i reg ops

/-- `_match_register_definition`. -/
def registerFinding (port : IdaPort) (i : Instruction) (reg : Nat) : Option Finding :=
  if i.isCall ∧ port.returnValueReg = some reg then some (.interpret 0)
  else if i.isCall ∧ isCallClobbered port reg then
    some (.report (.unknown .noDefinitionFound
      ("caller-saved register is destroyed by the call at " ++ hex i.ea)))
  else registerOperandFinding port i reg i.operands

/-- The region a memory reference is relative to. -/
inductive Space
  | abs
  | sp
  /-- A stack reference without a known delta, keyed by its own address. -/
  | spUnknown (ea : Nat)
  | fp
  | reg (base : Nat)
  | segment (name : String) (inner : Space)
  deriving DecidableEq, Repr

abbrev MemoryKey := Space × Int

/-- `_memory_location`. -/
def memoryLocation (port : IdaPort) (baseReg : Option Nat) (disp : Int) (ea funcEa : Nat) :
    MemoryKey :=
  match baseReg with
  | none => (.abs, disp)
  | some base =>
      if port.stackPointerReg = some base then
        match port.getSpDelta funcEa ea with
        | none => (.spUnknown ea, disp)
        | some delta => (.sp, delta + disp)
      else if port.framePointerReg = some base then (.fp, disp)
      else (.reg base, disp)

/-- The location a memory operand writes, with its segment; `none` when the operand
has neither an address nor a base. -/
def operandLocation (port : IdaPort) (op : Operand) (ea funcEa : Nat) : Option MemoryKey :=
  let location :=
    if direct : op.kind = .memDirect then
      some (memoryLocation port none (op.addr.get (op.addr_isSome direct)) ea funcEa)
    else op.reg.map fun base => memoryLocation port (some base) op.disp ea funcEa
  if op.hasSegment then
    location.map fun (space, offset) => (.segment (op.segmentName.getD "") space, offset)
  else location

/-- The operand loop of `_match_memory_definition`. -/
def memoryOperandFinding (port : IdaPort) (i : Instruction) (key : MemoryKey) (funcEa : Nat) :
    List Operand → Option Finding
  | [] => none
  | op :: ops =>
      if op.isMemory ∧ i.isWritten op.number then
        match operandLocation port op i.ea funcEa with
        | none => memoryOperandFinding port i key funcEa ops
        | some (space, offset) =>
            if op.hasIndex then
              if space = key.1 then
                some (.report (.unknown .unsupportedOperandShape
                  ("indexed write at " ++ hex i.ea ++ " may alias the queried location")))
              else memoryOperandFinding port i key funcEa ops
            else if (space, offset) ≠ key then memoryOperandFinding port i key funcEa ops
            else some (.interpret op.number)
      else memoryOperandFinding port i key funcEa ops

/-- `_match_memory_definition`. -/
def memoryFinding (port : IdaPort) (i : Instruction) (key : MemoryKey) (funcEa : Nat) :
    Option Finding :=
  memoryOperandFinding port i key funcEa i.operands

/-! ## The resolver -/

/-- What a locator reaches through its context. -/
structure Callbacks where
  resolveRegister : Option Nat → Nat → Query ValueLattice
  resolveMemory : Option Nat → Int → Nat → Nat → Query ValueLattice

structure BackwardResolver where
  port : IdaPort
  registry : LocatorRegistry
  maxSteps : Nat := 200
  maxBlocks : Nat := 64

namespace BackwardResolver

variable (self : BackwardResolver)

def dereference (addr : Int) (size : Nat) : Query ValueLattice := do
  let ok ← Query.step
  if ok then
    match self.port.readInt addr size with
    | none => pure (.memoryRef addr (.unknown' .memoryReadFailed))
    | some raw => pure (.memoryRef addr (.concrete (.int raw) .int))
  else pure budgetExceeded

/-- The callbacks a locator makes are answered by the resolver itself. -/
def answerCallback (cb : Callbacks) : (o : Callback.Op) → Query (Callback.Ans o)
  | .resolveRegister reg ea => cb.resolveRegister reg ea
  | .resolveMemory base disp ea size => cb.resolveMemory base disp ea size
  | .dereference addr size => self.dereference addr size

/-- `_safe_extract`: a locator that raises is not applicable. -/
def safeExtract (cb : Callbacks) (l : Locator) (i : Instruction) (dest : Nat)
    (funcEa : Option Nat) : Query LocatorOutcome := do
  let _ ← Query.mark .extract
  let outcome ← Prog.interpret (self.answerCallback cb) (l.extract self.port funcEa i dest)
  pure (outcome.getD .notApplicable)

/-- `_interpret_definition`. -/
def interpretDefinition (cb : Callbacks) (i : Instruction) (dest : Nat) (funcEa : Option Nat) :
    Query ValueLattice :=
  match self.registry.findMatch i with
  | none => pure (.unknown .unsupportedInstruction (i.mnem ++ " at " ++ hex i.ea))
  | some l => do
      let outcome ← self.safeExtract cb l i dest funcEa
      match outcome with
      | .notApplicable =>
          pure (.unknown .unsupportedOperandShape (i.mnem ++ " at " ++ hex i.ea))
      | .resolved value => pure value

def settle (cb : Callbacks) (i : Instruction) (funcEa : Nat) : Finding → Query ValueLattice
  | .interpret operand => self.interpretDefinition cb i operand (some funcEa)
  | .report value => pure value

def matchRegisterDefinition (cb : Callbacks) (reg funcEa : Nat) (i : Instruction) :
    Option (Query ValueLattice) :=
  (registerFinding self.port i reg).map (self.settle cb i funcEa)

def matchMemoryDefinition (cb : Callbacks) (key : MemoryKey) (funcEa : Nat) (i : Instruction) :
    Option (Query ValueLattice) :=
  (memoryFinding self.port i key funcEa).map (self.settle cb i funcEa)

def walkRegisterLinear (cb : Callbacks) (loops reg boundaryEa funcEa : Nat) :
    Query ValueLattice := do
  let scanned ← scanBack self.port (self.matchRegisterDefinition cb reg funcEa) funcEa loops
    (self.port.prevHead boundaryEa funcEa)
  pure (scanned.getD (.unknown' .noDefinitionFound))

def walkRegisterBlock (cb : Callbacks) (loops reg boundaryEa : Nat) (block : BasicBlockInfo)
    (funcEa : Nat) (cfg : CfgModel) : Query RegisterPath :=
  walkBlock registerPaths self.port cfg (self.matchRegisterDefinition cb reg funcEa) loops loops
    boundaryEa block []

def walkMemoryLinear (cb : Callbacks) (loops : Nat) (key : MemoryKey) (boundaryEa funcEa : Nat) :
    Query MemoryPath := do
  let scanned ← scanBack self.port (self.matchMemoryDefinition cb key funcEa) funcEa loops
    (self.port.prevHead boundaryEa funcEa)
  match scanned with
  | some value => pure (.value value)
  | none => pure .notFound

def walkMemoryBlock (cb : Callbacks) (loops : Nat) (key : MemoryKey) (boundaryEa : Nat)
    (block : BasicBlockInfo) (funcEa : Nat) (cfg : CfgModel) : Query MemoryPath :=
  walkBlock memoryPaths self.port cfg (self.matchMemoryDefinition cb key funcEa) loops loops
    boundaryEa block []

/-- The block an address is resolved in, when the function has a graph. -/
def useBlock (cfg : CfgModel) (ea : Nat) : Option BasicBlockInfo :=
  if cfg.isEmpty then none else cfg.blockContaining ea

/-- `_resolve_register_impl`. -/
def resolveRegisterImpl (loops : Nat) (cb : Callbacks) (reg : Option Nat) (beforeEa : Nat) :
    Query ValueLattice :=
  match reg with
  | none => pure (.unknown .unsupportedOperandShape "no register to resolve")
  | some r => do
      let ok ← Query.step
      if ok then
        let owner ← Query.funcEaFor beforeEa
        match owner with
        | none => pure (.unknown .noDefinitionFound "no owning function")
        | some funcEa => do
            let cfg ← Query.cfgFor funcEa
            match useBlock cfg beforeEa with
            | none => self.walkRegisterLinear cb loops r beforeEa funcEa
            | some block => do
                let result ← self.walkRegisterBlock cb loops r beforeEa block funcEa cfg
                match result with
                | .cycle =>
                    pure (.unknown .noDefinitionFound "every path into this block loops back")
                | .value v => pure v
      else pure budgetExceeded

/-- The search of `_resolve_memory_impl`, before any fallback. -/
def searchMemory (loops : Nat) (cb : Callbacks) (baseReg : Option Nat) (disp : Int)
    (beforeEa : Nat) : Query MemoryPath := do
  let owner ← Query.funcEaFor beforeEa
  match owner with
  | none => pure .notFound
  | some funcEa => do
      let key := memoryLocation self.port baseReg disp beforeEa funcEa
      let cfg ← Query.cfgFor funcEa
      match useBlock cfg beforeEa with
      | none => self.walkMemoryLinear cb loops key beforeEa funcEa
      | some block => self.walkMemoryBlock cb loops key beforeEa block funcEa cfg

/-- `_fallback_dereference`. -/
def fallbackDereference (loops : Nat) (cb : Callbacks) (baseReg : Option Nat) (disp : Int)
    (beforeEa size : Nat) : Query ValueLattice :=
  match baseReg with
  | none => self.dereference disp size
  | some base => do
      let baseVal ← self.resolveRegisterImpl loops cb (some base) beforeEa
      match baseVal.intOf with
      | none => pure (.unknown' .noDefinitionFound)
      | some n => self.dereference (n + disp) size

/-- `_resolve_memory_impl`. A search whose every path loops back found no write. -/
def resolveMemoryImpl (loops : Nat) (cb : Callbacks) (baseReg : Option Nat) (disp : Int)
    (beforeEa size : Nat) : Query ValueLattice := do
  let ok ← Query.step
  if ok then
    let found ← self.searchMemory loops cb baseReg disp beforeEa
    match found with
    | .value v => pure v
    | .notFound => self.fallbackDereference loops cb baseReg disp beforeEa size
    | .cycle => self.fallbackDereference loops cb baseReg disp beforeEa size
  else pure budgetExceeded

/-- The callbacks of a resolver in which at most `depth` of them are nested. -/
def callbacks (loops : Nat) : Nat → Callbacks
  | 0 => ⟨fun _ _ => .diverge, fun _ _ _ _ => .diverge⟩
  | depth + 1 =>
      ⟨self.resolveRegisterImpl loops (callbacks loops depth),
        self.resolveMemoryImpl loops (callbacks loops depth)⟩

/-- `_resolve_at_instruction_impl`. -/
def resolveAtInstructionImpl (cb : Callbacks) (ea dest : Nat) : Query ValueLattice := do
  let ok ← Query.step
  if ok then
    let fetched ← Query.get ea
    match fetched with
    | none => pure (.unknown .noDefinitionFound ("failed to decode " ++ hex ea))
    | some i => do
        let owner ← Query.funcEaFor ea
        self.interpretDefinition cb i dest owner
  else pure budgetExceeded

/-! ## The public queries -/

/-- A bound no query of this resolver reaches. -/
def fuel : Nat := self.maxSteps + self.maxBlocks + 2

def registerQuery (bound reg beforeEa : Nat) : Query ValueLattice :=
  (self.callbacks bound bound).resolveRegister (some reg) beforeEa

def memoryQuery (bound : Nat) (baseReg : Option Nat) (disp : Int) (beforeEa size : Nat) :
    Query ValueLattice :=
  (self.callbacks bound bound).resolveMemory baseReg disp beforeEa size

def instructionQuery (bound ea dest : Nat) : Query ValueLattice :=
  self.resolveAtInstructionImpl (self.callbacks bound bound) ea dest

/-- Every public query starts from a fresh budget. -/
def freshBudget : ResolutionBudget where
  maxSteps := self.maxSteps
  maxBlocks := self.maxBlocks

def execute (query : Query ValueLattice) :
    Option (ValueLattice × ResolutionBudget × List (Event Resolver)) :=
  query.run (handler self.port) self.freshBudget

def resolveRegister (reg beforeEa : Nat) : Option ValueLattice :=
  (self.execute (self.registerQuery self.fuel reg beforeEa)).map (·.1)

def resolveMemory (baseReg : Option Nat) (disp : Int) (beforeEa size : Nat) :
    Option ValueLattice :=
  (self.execute (self.memoryQuery self.fuel baseReg disp beforeEa size)).map (·.1)

def resolveAtInstruction (ea : Nat) (dest : Nat := 0) : Option ValueLattice :=
  (self.execute (self.instructionQuery self.fuel ea dest)).map (·.1)

end BackwardResolver

end IDAnalysister
