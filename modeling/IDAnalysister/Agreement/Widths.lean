import IDAnalysister.Adapters.FakePort
import IDAnalysister.Backward.Chains
import IDAnalysister.Forward.Clobbers
import IDAnalysister.Library.Widths

/-!
# Moves that change the width

What both engines report for a register after moves of immediates, between views of registers
that share one number, and from static memory. Neither looks at the width of an operand or at
the difference between `movzx` and `movsx`: the number is passed on as it is (the docstring of
`MovRegRegLocator` says so). `reports_passed_number` says how much of it is in the register.
-/

namespace IDAnalysister

open Effect Prog Widths

/-! ## The instruction forms -/

/-- `movsx` and `movsxd` repeat the source's sign, the other moves fill with zeros. -/
def extensionOf (mnem : String) : Extension :=
  if mnem = "movsx" ∨ mnem = "movsxd" then .sign else .zero

/-- The view of `size` bytes, all of them for 0, of a register of `W` bits: a write to it
determines the whole register, unless it has 16 bits only. -/
def sharedView (W r size : Nat) : RegisterView where
  parent := r
  bitOffset := 0
  bitSize := if size = 0 then W else size * 8
  parentBitSize := W
  writeDefinesParent := decide (size ≠ 2)

/-- The views of the register go by its own number. -/
def SharedReg (port : IdaPort) (W r : Nat) : Prop :=
  ∀ size, size = 0 ∨ size ∈ [2, 4, 8] ∧ size * 8 ≤ W →
    port.registerView r size = some (sharedView W r size)

/-- The operand is the view of `size` bytes of the register `r`. -/
structure ViewOperand (port : IdaPort) (W : Nat) (op : Operand) (r size : Nat) : Prop where
  kind : op.kind = .reg
  reg : op.reg = some r
  dtypeSize : op.dtypeSize = size
  sized : size ∈ [2, 4, 8]
  fits : size * 8 ≤ W
  shared : SharedReg port W r

/-- The instruction makes the move. -/
inductive WidthForm (port : IdaPort) (W : Nat) (i : Instruction) : Move Nat → Prop
  | imm {a b : Operand} {r size : Nat} {n : Int} : i.mnem = "mov" → Pair i a b true false →
    ViewOperand port W a r size → b.kind = .immediate → b.immValue = some n →
    WidthForm port W i ⟨r, size * 8, .zero, .number n⟩
  | reg {a b : Operand} {r size q size' : Nat} : i.mnem ∈ moveMnemonics → Pair i a b true false →
    ViewOperand port W a r size → ViewOperand port W b q size' →
    WidthForm port W i ⟨r, size * 8, extensionOf i.mnem, .reg q (size' * 8)⟩
  | load {a b : Operand} {r size : Nat} {addr : Int} : i.mnem ∈ moveMnemonics →
    Pair i a b true false → ViewOperand port W a r size → GlobalOperand b addr →
    WidthForm port W i ⟨r, size * 8, extensionOf i.mnem, .cell addr b.dtypeSize⟩

/-- The instructions make the moves. -/
def WidthRow (port : IdaPort) (W : Nat) (is : List Instruction) (moves : List (Move Nat)) : Prop :=
  List.Forall₂ (WidthForm port W) is moves

/-- What the port reads is in memory. -/
def ImageOf (port : IdaPort) (mem : Bytes.Memory Int) : Prop :=
  ∀ addr size n, port.readInt addr size = some n → n = Bytes.read mem addr size

/-- The datum that a value reports, itself or as the content of a cell. -/
def ValueLattice.datumOf : ValueLattice → Option Datum
  | concrete d _ => some d
  | memoryRef _ (concrete d _) => some d
  | _ => none

/-- The value reports no other number than the passage's. -/
def Tells (o : Option Passage) (v : ValueLattice) : Prop :=
  ∀ d, v.datumOf = some d → ∃ p, o = some p ∧ d = .int p.number

section Forms

variable {port : IdaPort} {W r q size : Nat} {i : Instruction} {a b : Operand} {m : Move Nat}

/-- An unknown value tells nothing. -/
theorem tells_of_unknown {o : Option Passage} {v : ValueLattice} (unknown : v.isKnown = false) :
    Tells o v := by
  rcases ValueLattice.isKnown_eq_false unknown with ⟨reason, detail, rfl⟩
  intro d shown
  cases shown

theorem SharedReg.whole (shared : SharedReg port W r) (word : W = 32 ∨ W = 64) :
    WholeReg port W r := by
  intro size view width found
  rcases width with rfl | width
  · rw [shared 0 (Or.inl rfl)] at found
    cases found
    exact ⟨rfl, rfl, rfl⟩
  · have listed : size ∈ [2, 4, 8] := by
      rcases word with rfl | rfl
      · obtain rfl : size = 4 := by omega
        decide
      · obtain rfl : size = 8 := by omega
        decide
    have nonzero : size ≠ 0 := by
      rintro rfl
      exact absurd listed (by decide)
    rw [shared size (Or.inr ⟨listed, width.le⟩)] at found
    cases found
    exact ⟨rfl, rfl, (if_neg nonzero).trans width⟩

theorem ViewOperand.view (operand : ViewOperand port W a r size) :
    a.reg.bind (port.registerView · a.dtypeSize) = some (sharedView W r size) := by
  rw [operand.reg, operand.dtypeSize]
  exact operand.shared size (Or.inr ⟨operand.sized, operand.fits⟩)

theorem ViewOperand.clears_iff (operand : ViewOperand port W a r size) :
    32 ≤ size * 8 ↔ size ≠ 2 := by
  have sized := operand.sized
  simp only [List.mem_cons, List.not_mem_nil, or_false] at sized
  omega

/-- A move is taken for the definition of its register if it writes more than 16 bits. -/
theorem registerFinding_view (notCall : i.isCall = false) (pair : Pair i a b true false)
    (dest : ViewOperand port W a r size) (word : W = 32 ∨ W = 64) (whole : WholeReg port W q) :
    if q = r then
      if 32 ≤ size * 8 then registerFinding port i q = some (.interpret 0)
      else ∃ reason detail, registerFinding port i q = some (.report (.unknown reason detail))
    else registerFinding port i q = none := by
  have found : registerFinding port i q = registerOperandFinding port i q [a, b] := by
    rw [registerFinding_of_notCall notCall, pair.operands]
  have source : registerOperandFinding port i q [b] = none := by
    simp [registerOperandFinding, pair.second, pair.flagB]
  rw [found, registerOperandFinding, source, dest.view]
  simp only [dest.kind, pair.first, pair.flagA, and_self, if_true]
  by_cases same : q = r
  · subst same
    rw [if_pos rfl, dest.shared 0 (Or.inl rfl)]
    by_cases clears : 32 ≤ size * 8
    · simp [sharedView, dest.clears_iff.mp clears, clears]
    · have narrow : size = 2 := not_not.mp fun other => clears (dest.clears_iff.mpr other)
      have part : ¬ W ≤ 16 := by omega
      subst narrow
      simp [sharedView, part]
  · rw [if_neg same]
    cases named : port.registerView q 0 with
    | none => simp [dest.reg, Ne.symm same]
    | some query =>
        have parent := (whole 0 query (Or.inl rfl) named).1
        simp [sharedView, parent, Ne.symm same]

/-- A move between registers, or from memory, defines no cell. -/
theorem WidthForm.quiet (form : WidthForm port W i m) (key : MemoryKey) (funcEa : Nat) :
    memoryFinding port i key funcEa = none := by
  cases form with
  | imm _ pair dest => exact memoryFinding_dest pair dest.kind
  | reg _ pair dest => exact memoryFinding_dest pair dest.kind
  | load _ pair dest => exact memoryFinding_dest pair dest.kind

end Forms

/-! ## The backward resolver -/

section Backward

variable {self : BackwardResolver} {W use q r size : Nat} {is pre : List Instruction}
variable {i : Instruction} {a b : Operand} {m : Move Nat} {moves : List (Move Nat)}
variable {mem : Bytes.Memory Int}

/-- What is read from the image tells the passage through the cell. -/
theorem tells_dereferenced (image : ImageOf self.port mem) {e : Extension} {d : Nat}
    {P : Nat → Option Passage} (addr : Int) :
    Tells ((Source.cell addr size).passage mem P e d) (dereferenced self.port addr size) := by
  intro datum shown
  rw [dereferenced] at shown
  cases known : self.port.readInt addr size with
  | none =>
      rw [known] at shown
      cases shown
  | some raw =>
      rw [known] at shown
      cases shown
      exact ⟨_, rfl, by rw [image addr size raw known]⟩

/-- What a form with a destination needs to do for the chain. -/
theorem chain_dest {funcEa : Nat} (notCall : i.isCall = false) (pair : Pair i a b true false)
    (dest : ViewOperand self.port W a r size) (word : W = 32 ∨ W = 64)
    (whole : WholeReg self.port W q) {e : Extension} {o : Source Nat}
    (settles : ∀ B : Nat → Option Passage,
      Reports self W pre.length i.ea (fun q => Tells (B q)) →
      Yields self.port pre.length (Tells (o.passage mem B e (size * 8))) fun loops depth =>
        self.settle (self.callbacks loops depth) i funcEa (.interpret 0)) :
    (registerFinding self.port i q = none ∧
        ∀ B, (Move.mk r (size * 8) e o).pass mem B q = B q) ∨
      ∃ f, registerFinding self.port i q = some f ∧ ∀ B,
        Reports self W pre.length i.ea (fun q => Tells (B q)) →
        Yields self.port pre.length (Tells ((Move.mk r (size * 8) e o).pass mem B q))
          fun loops depth => self.settle (self.callbacks loops depth) i funcEa f := by
  have finding := registerFinding_view notCall pair dest word whole
  by_cases same : q = r
  · subst same
    right
    rw [if_pos rfl] at finding
    by_cases clears : 32 ≤ size * 8
    · rw [if_pos clears] at finding
      refine ⟨_, finding, fun B reports => ?_⟩
      rw [Move.pass, Function.update_self, if_pos clears]
      exact settles B reports
    · rw [if_neg clears] at finding
      rcases finding with ⟨reason, detail, found⟩
      exact ⟨_, found, fun B _ => Yields.of_decides (decides_report self i funcEa _)
        (tells_of_unknown rfl)⟩
  · rw [if_neg same] at finding
    exact Or.inl ⟨finding, fun B => Function.update_of_ne same _ _⟩

/-- The resolver follows moves of any width along a chain. -/
theorem widthChain (builtin : self.registry = defaultRegistry) (word : W = 32 ∨ W = 64)
    (image : ImageOf self.port mem) :
    Chain self W (WidthForm self.port W) (fun m P => m.pass mem P) Tells none where
  unset := tells_of_unknown rfl
  each := by
    intro pre moves i m early form line q whole
    cases form with
    | @imm a b r size n mnem pair dest kind value =>
        refine chain_dest (not_isCall_of_mnem mnem (by decide)) pair dest word whole fun B _ => ?_
        have decides := decides_movImm builtin mnem pair dest.kind kind value line.funcEa
        refine Yields.of_decides decides ?_
        intro d shown
        cases shown
        exact ⟨_, rfl, rfl⟩
    | @reg a b r size p size' move pair dest src =>
        refine chain_dest (not_isCall_of_move move) pair dest word whole fun B reports => ?_
        refine reports.copied builtin move pair dest.kind src.kind src.reg
          (src.shared.whole word) ?_
        intro v told d shown
        rcases told d shown with ⟨passage, known, same⟩
        rw [Source.passage, known]
        exact ⟨_, rfl, same⟩
    | @load a b r size addr move pair dest src =>
        refine chain_dest (not_isCall_of_move move) pair dest word whole fun B _ => ?_
        refine Yields.loaded builtin line (fun j member key => ?_) move pair dest.kind src
          (tells_dereferenced image addr)
        rcases exists_of_forall₂ early member with ⟨m, -, form⟩
        exact form.quiet key line.funcEa

/-- Under any limits, what is reported is the passed number. -/
theorem WidthRow.tells (builtin : self.registry = defaultRegistry) (word : W = 32 ∨ W = 64)
    (image : ImageOf self.port mem) (row : WidthRow self.port W is moves)
    (line : StraightLine self.port is use) (shared : SharedReg self.port W r) {v : ValueLattice}
    (answered : self.resolveRegister r use = some v) : Tells (passages mem moves r) v := by
  cases known : v.isKnown with
  | false => exact tells_of_unknown known
  | true =>
      refine known_of_yields (n := is.length) builtin (fun steps => ?_) known answered
      have chain := @widthChain (self.withLimits steps self.maxBlocks) W mem builtin word image
      exact chain.reports row line r (shared.whole word)

end Backward

/-! ## The forward engine -/

namespace ForwardSymbolicEngine

variable {self : ForwardSymbolicEngine} {W r size funcEa : Nat} {is : List Instruction}
variable {i : Instruction} {a b : Operand} {m : Move Nat} {moves : List (Move Nat)}
variable {mem : Bytes.Memory Int} {s : AbstractState} {P : Nat → Option Passage}

/-- No register reports another number than its passage's. -/
def Follows (s : AbstractState) (P : Nat → Option Passage) : Prop :=
  ∀ q, Tells (P q) (s.getRegister (some q))

/-- A load from a static address loses its register. -/
theorem stepTransfer_direct {l : Locator} {addr : Int} (notCall : i.isCall = false)
    (matched : self.registry.findMatch i = some l) (inherits : l.applyForward = none)
    (pair : Pair i a b true false) (dest : a.kind = .reg) (src : GlobalOperand b addr) :
    self.stepTransfer i s funcEa = s.invalidateRegister a.reg .unsupportedInstruction := by
  have noKey : self.stackKey b i.ea funcEa = none := by simp [stackKey, src.kind]
  rw [stepTransfer_fromMemory notCall matched inherits pair dest src.isMemory, applyMemoryLoad,
    registerDestination_pair pair dest]
  simp [noKey]

theorem writesPart_view (dest : ViewOperand self.port W a r size)
    (pair : Pair i a b true false) (part : ¬ 32 ≤ size * 8) : self.WritesPart i (some r) := by
  have member : a ∈ i.operands := by simp [pair.operands]
  have written : a.kind = .reg ∧ i.isWritten a.number := by
    simp [dest.kind, pair.first, pair.flagA]
  have narrow : size = 2 := not_not.mp fun other => part (dest.clears_iff.mpr other)
  refine ⟨a, member, written, sharedView W r size, dest.view, ?_, Or.inl dest.reg.symm⟩
  simp [sharedView, narrow]

/-- A step that sets its register to what it passes on. -/
theorem Follows.set (follows : Follows s P) (pair : Pair i a b true false)
    (dest : ViewOperand self.port W a r size) {v : ValueLattice}
    (transferred : self.stepTransfer i s funcEa = s.setRegister a.reg v) {e : Extension}
    {o : Source Nat} (told : Tells (o.passage mem P e (size * 8)) v) :
    Follows (self.step i s funcEa) ((Move.mk r (size * 8) e o).pass mem P) := by
  intro q
  by_cases part : self.WritesPart i (some q)
  · apply tells_of_unknown
    apply Bool.eq_false_iff.mpr
    intro known
    exact (known_step.mp known).2 part
  · rw [step, getRegister_invalidatePartial part, transferred, dest.reg]
    have back := AbstractState.read_setRegister s (some r) v (.reg (some q))
    simp only [AbstractState.read, Location.reg.injEq, Option.some.injEq] at back
    rw [back, Move.pass]
    by_cases same : q = r
    · subst same
      have clears : 32 ≤ size * 8 :=
        not_not.mp fun narrow => part (writesPart_view dest pair narrow)
      rw [if_pos rfl, Function.update_self, if_pos clears]
      exact told
    · rw [if_neg same, Function.update_of_ne same]
      exact follows q

/-- The forward state follows one move. -/
theorem Follows.step (builtin : self.registry = defaultRegistry) (follows : Follows s P)
    (form : WidthForm self.port W i m) : Follows (self.step i s funcEa) (m.pass mem P) := by
  cases form with
  | @imm a b r size n mnem pair dest kind value =>
      have matched := findMatch_movImm mnem pair dest.kind kind
      rw [← builtin] at matched
      have transferred : self.stepTransfer i s funcEa = applyLocator _ i s :=
        stepTransfer_forward (not_isCall_of_mnem mnem (by decide)) matched rfl
      rw [applyLocator_movRegImm pair.operand_zero pair.operand_one, value] at transferred
      refine follows.set pair dest transferred ?_
      intro d shown
      cases shown
      exact ⟨_, rfl, rfl⟩
  | @reg a b r size p size' move pair dest src =>
      have matched := findMatch_moveReg move pair dest.kind src.kind
      rw [← builtin] at matched
      have transferred : self.stepTransfer i s funcEa = applyLocator _ i s :=
        stepTransfer_forward (not_isCall_of_move move) matched rfl
      rw [applyLocator_movRegReg pair.operand_zero pair.operand_one, src.reg] at transferred
      refine follows.set pair dest transferred ?_
      intro d shown
      rcases follows p d shown with ⟨passage, known, same⟩
      rw [Source.passage, known]
      exact ⟨_, rfl, same⟩
  | @load a b r size addr move pair dest src =>
      have matched := findMatch_moveRegMem move pair dest.kind src.isMemory
      rw [← builtin] at matched
      have transferred : self.stepTransfer i s funcEa =
          s.invalidateRegister a.reg .unsupportedInstruction :=
        stepTransfer_direct (not_isCall_of_move move) matched rfl pair dest.kind src
      exact follows.set pair dest transferred (tells_of_unknown rfl)

/-- It follows a row of moves. -/
theorem Follows.run (builtin : self.registry = defaultRegistry) (follows : Follows s P)
    (row : WidthRow self.port W is moves) :
    Follows (self.runSteps funcEa is s) (moves.foldl (fun P m => m.pass mem P) P) := by
  induction row generalizing s P with
  | nil => exact follows
  | cons form _ ih => exact ih (follows.step builtin form)

end ForwardSymbolicEngine

/-! ## What is left of the number -/

/-- The datum is the number that the register is followed back to, and the register has what
its moves leave of it. -/
def PassedOn {W : Nat} (mem : Bytes.Memory Int) (moves : List (Move Nat)) (regs : Nat → BitVec W)
    (r : Nat) (d : Datum) : Prop :=
  ∃ p, passages mem moves r = some p ∧ d = .int p.number ∧ p.Describes (run mem moves regs r)

theorem Tells.passedOn {port : IdaPort} {W r : Nat} {is : List Instruction}
    {moves : List (Move Nat)} {mem : Bytes.Memory Int} {v : ValueLattice}
    (told : Tells (passages mem moves r) v) (row : WidthRow port W is moves)
    (regs : Nat → BitVec W) {d : Datum} (shown : v.datumOf = some d) :
    PassedOn mem moves regs r d := by
  rcases told d shown with ⟨p, known, same⟩
  refine ⟨p, known, same, describes_run ?_ mem regs known⟩
  intro m member
  rcases exists_of_forall₂ row.flip member with ⟨i, -, form⟩
  cases form with
  | imm _ _ dest => exact dest.fits
  | reg _ _ dest => exact dest.fits
  | load _ _ dest => exact dest.fits

/-- What either engine reports for a register is the number that its moves start with, an
immediate or the unsigned number of the loaded bytes, passed on as it is: the register agrees
with it in as many low bits as the narrowest operand on the way has, and holds it if every
operand on the way does and no move takes its highest bit for a sign. -/
theorem reports_passed_number {port : IdaPort} {W r : Nat} (word : W = 32 ∨ W = 64)
    {is : List Instruction} {moves : List (Move Nat)} {mem : Bytes.Memory Int}
    (image : ImageOf port mem) (row : WidthRow port W is moves) (shared : SharedReg port W r)
    (regs : Nat → BitVec W) :
    (∀ (self : BackwardResolver) (use : Nat) (v : ValueLattice) (d : Datum), self.port = port →
      self.registry = defaultRegistry → Nonempty (StraightLine port is use) →
      self.resolveRegister r use = some v → v.datumOf = some d → PassedOn mem moves regs r d) ∧
    ∀ (self : ForwardSymbolicEngine) (funcEa bound used used' : Nat) (block : BasicBlockInfo)
      (s s' : AbstractState) (d : Datum), self.port = port → self.registry = defaultRegistry →
      Tiles block.startEa is block.endEa → (∀ i ∈ is, port.decodeAt i.ea = some i) →
      (∀ q, (s.getRegister (some q)).datumOf = none) →
      self.simulateBlock bound funcEa block s used = some (s', used', false) →
      (s'.getRegister (some r)).datumOf = some d → PassedOn mem moves regs r d := by
  constructor
  · rintro self use v d rfl builtin ⟨line⟩ answered shown
    exact (row.tells builtin word image line shared answered).passedOn row regs shown
  · rintro self funcEa bound used used' block s s' d rfl builtin tiles decoded unset simulated shown
    have start : ForwardSymbolicEngine.Follows s fun _ => none := by
      intro q d' shown'
      rw [unset] at shown'
      cases shown'
    rcases self.simulate_eq_runSteps simulated with ⟨js, sweep, rfl⟩
    have sweep' := tiles.sweep decoded (Nat.le_refl _)
    rw [tiles.before_end] at sweep'
    rw [sweep.unique sweep'] at shown
    exact (start.run builtin row r).passedOn row regs shown

/-! ## Numbers that do not fit -/

/-- The general registers of a 64-bit fake port share their numbers. -/
theorem FakeIdaPort.sharedReg {fake : FakeIdaPort} (wide : fake.pointerSize = 8) {r : Nat}
    (general : r < 10) : SharedReg fake.toPort 64 r := by
  have known : r ∈ defaultRegisters.map (·.2) := by
    interval_cases r <;> decide
  have noView : subRegisters.lookup r = none := by
    interval_cases r <;> rfl
  rintro size (rfl | ⟨listed, -⟩)
  · simp [toPort, registerView, noView, known, wide, sharedView]
  · simp only [List.mem_cons, List.not_mem_nil, or_false] at listed
    rcases listed with rfl | rfl | rfl <;>
      simp [toPort, registerView, noView, known, wide, sharedView]

/-- A fake port reads the bytes that it lists. -/
theorem FakeIdaPort.imageOf {fake : FakeIdaPort} {mem : Bytes.Memory Int}
    (listed : ∀ addr b, fake.memory.lookup addr = some b → (mem addr).toNat = b) :
    ImageOf fake.toPort mem := by
  intro addr size
  induction size generalizing addr with
  | zero =>
      intro n known
      cases known
      rfl
  | succ size ih =>
      intro n known
      change fake.readInt addr (size + 1) = some n at known
      rw [FakeIdaPort.readInt] at known
      cases low : fake.memory.lookup addr with
      | none => simp [low] at known
      | some b =>
          cases rest : fake.readInt (addr + 1) size with
          | none => simp [low, rest] at known
          | some n' =>
              have value := ih (addr + 1) n' rest
              simp only [low, rest, Option.bind_eq_bind, Option.bind_some,
                Option.some.injEq] at known
              rw [← known, value, Bytes.read, listed addr b low]
              push_cast
              rfl

namespace NarrowMove

def setRax : Instruction :=
  FakeIdaPort.insn 0x401000 "mov" 10 [FakeIdaPort.reg 0 0 8, FakeIdaPort.imm 1 0x1122334455 8]

def cutEcx : Instruction :=
  FakeIdaPort.insn 0x40100a "mov" 2 [FakeIdaPort.reg 0 1, FakeIdaPort.reg 1 0]

def loadEdx : Instruction :=
  FakeIdaPort.insn 0x40100c "movsx" 8 [FakeIdaPort.reg 0 2, FakeIdaPort.memDirect 1 0x404000 1]

def is : List Instruction := [setRax, cutEcx, loadEdx]

def fake : FakeIdaPort where
  pointerSize := 8
  instructions := is ++ [FakeIdaPort.insn 0x401014 "ret" 1 []]
  funcBounds := [(0x401000, 0x401015)]
  blocks := [(0x401000, [⟨0x401000, 0x401015, [], []⟩])]
  memory := [(0x404000, 0x80)]

def graph : ConsistentCfg fake.toPort 0x401000 where
  tile _ := fake.instructions
  entry := ⟨0x401000, 0x401015, [], []⟩
  entry_mem := by decide
  entry_startEa := rfl
  nonempty := by decide
  disjoint := by decide
  converse := by decide
  tiled := by decide
  decoded := by decide
  heads := by decide
  owner := by decide

def line : StraightLine fake.toPort is 0x401014 where
  funcEa := 0x401000
  graph := graph
  source := by decide
  lo := by decide
  hi := by decide
  executed := by decide

def resolver : BackwardResolver where
  port := fake.toPort
  registry := defaultRegistry

def engine : ForwardSymbolicEngine where
  port := fake.toPort
  registry := defaultRegistry

def moves : List (Move Nat) :=
  [⟨0, 64, .zero, .number 0x1122334455⟩, ⟨1, 32, extensionOf "mov", .reg 0 32⟩,
    ⟨2, 32, extensionOf "movsx", .cell 0x404000 1⟩]

def mem : Bytes.Memory Int := fun addr => if addr = 0x404000 then 0x80 else 0

theorem image : ImageOf fake.toPort mem := by
  apply FakeIdaPort.imageOf
  intro addr b known
  by_cases here : addr = 0x404000
  · subst here
    cases known
    rfl
  · have other : (addr == 0x404000) = false := by simpa using here
    simp [fake, List.lookup_cons, other] at known

theorem row : WidthRow fake.toPort 64 is moves := by
  have view (number r size : Nat) (general : r < 10) (sized : size ∈ [2, 4, 8]) :
      ViewOperand fake.toPort 64 (FakeIdaPort.reg number r size) r size := by
    have fits : size * 8 ≤ 64 := by
      simp only [List.mem_cons, List.not_mem_nil, or_false] at sized
      omega
    exact ⟨rfl, rfl, rfl, sized, fits, FakeIdaPort.sharedReg rfl general⟩
  refine .cons ?_ (.cons ?_ (.cons ?_ .nil))
  · exact .imm rfl ⟨rfl, rfl, rfl, rfl, rfl⟩ (view 0 0 8 (by decide) (by decide)) rfl rfl
  · have move : cutEcx.mnem ∈ moveMnemonics := by decide
    exact .reg move ⟨rfl, rfl, rfl, rfl, rfl⟩ (view 0 1 4 (by decide) (by decide))
      (view 1 0 4 (by decide) (by decide))
  · have move : loadEdx.mnem ∈ moveMnemonics := by decide
    have global : GlobalOperand (FakeIdaPort.memDirect 1 0x404000 1) 0x404000 :=
      ⟨rfl, rfl, rfl, rfl, by decide⟩
    exact .load move ⟨rfl, rfl, rfl, rfl, rfl⟩ (view 0 2 4 (by decide) (by decide)) global

theorem ecx_reported :
    resolver.resolveRegister 1 0x401014 = some (.concrete (.int 0x1122334455) .int) := by
  decide

/-- Both engines report the number for `ecx`, which is cut to 32 bits there, and the resolver the
byte for `edx`, which has its sign extended. -/
theorem narrow_number_reported :
    WidthRow fake.toPort 64 is moves ∧ ImageOf fake.toPort mem ∧
      resolver.resolveRegister 1 0x401014 = some (.concrete (.int 0x1122334455) .int) ∧
      (engine.simulateBlock 3 0x401000 ⟨0x401000, 0x401014, [], []⟩ .empty 0).map
          (fun out => out.1.getRegister (some 1)) = some (.concrete (.int 0x1122334455) .int) ∧
      (run mem moves (fun _ => (0 : BitVec 64)) 1).toNat = 0x22334455 ∧
      resolver.resolveRegister 2 0x401014 =
        some (.memoryRef 0x404000 (.concrete (.int 0x80) .int)) ∧
      (run mem moves (fun _ => (0 : BitVec 64)) 2).toNat = 0xffffff80 :=
  ⟨row, image, ecx_reported, by decide, by decide, by decide, by decide⟩

theorem passed_number_cut :
    PassedOn mem moves (fun _ => (0 : BitVec 64)) 1 (.int 0x1122334455) :=
  (reports_passed_number (Or.inr rfl) image row (FakeIdaPort.sharedReg rfl (by decide))
    _).1 resolver
    0x401014 _ _ rfl rfl ⟨line⟩ ecx_reported rfl

end NarrowMove

end IDAnalysister
