import IDAnalysister.Agreement.Instructions

/-!
# What a step leaves of the locations that it writes

A register that an instruction is flagged as writing must not keep the value it had before.
The transfer function chooses by operand shapes: `step_store_unknown_iff` is about the store
path, `step_unmatched_unknown_iff` about instructions that no locator knows, and
`applyLocator_contained_iff` about a locator that raises. Each says for which instructions and
states nothing stale is left.
-/

namespace IDAnalysister

namespace ForwardSymbolicEngine

open AbstractState

/-! ## Registers that are written -/

/-- A register operand that the instruction writes names `r`. -/
def FlagsRegister (i : Instruction) (r : Option Nat) : Prop :=
  ∃ op ∈ i.operands, op.kind = .reg ∧ i.isWritten op.number ∧ op.reg = r

/-- Every register that the instruction is flagged as writing reads unknown. -/
def WrittenUnknown (i : Instruction) (s : AbstractState) : Prop :=
  ∀ r, FlagsRegister i r → (s.getRegister r).isKnown = false

/-- A written operand covers a part of a register only; `r` is the operand's own register or
the one that it is a part of. -/
def WritesPart (self : ForwardSymbolicEngine) (i : Instruction) (r : Option Nat) : Prop :=
  ∃ op ∈ i.operands, (op.kind = .reg ∧ i.isWritten op.number) ∧
    ∃ view, op.reg.bind (self.port.registerView · op.dtypeSize) = some view ∧
      view.writeDefinesParent = false ∧ (r = op.reg ∨ r = some view.parent)

variable {self : ForwardSymbolicEngine} {i : Instruction} {s : AbstractState} {funcEa : Nat}
variable {r : Option Nat} {op : Operand}

theorem known_setRegister (q : Option Nat) (v : ValueLattice) :
    ((s.setRegister q v).getRegister r).isKnown ↔
      if r = q then v.isKnown else (s.getRegister r).isKnown := by
  have back := read_setRegister s q v (.reg r)
  simp only [AbstractState.read, Location.reg.injEq] at back
  rw [back]
  split <;> rfl

theorem known_invalidateRegister (q : Option Nat) (reason : UnknownReason) :
    ((s.invalidateRegister q reason).getRegister r).isKnown ↔
      (s.getRegister r).isKnown ∧ r ≠ q := by
  rw [invalidateRegister, known_setRegister]
  by_cases same : r = q
  · simp [same]
  · simp [same]

/-- A register is known after a row of changes if it was, and none of them loses it. -/
theorem known_foldl {α : Type} {h : AbstractState → α → AbstractState} {xs : List α}
    (Lost : α → Prop) (each : ∀ x s, ((h s x).getRegister r).isKnown ↔
      (s.getRegister r).isKnown ∧ ¬ Lost x) (s : AbstractState) :
    ((xs.foldl h s).getRegister r).isKnown ↔
      (s.getRegister r).isKnown ∧ ∀ x ∈ xs, ¬ Lost x := by
  induction xs generalizing s with
  | nil => simp
  | cons x xs ih => rw [List.foldl_cons, ih, each, List.forall_mem_cons, and_assoc]

theorem known_invalidateWritten :
    ((invalidateWrittenRegisters i s).getRegister r).isKnown ↔
      (s.getRegister r).isKnown ∧ ¬ FlagsRegister i r := by
  have each (op : Operand) (s : AbstractState) :
      ((if op.kind = .reg ∧ i.isWritten op.number then
          s.invalidateRegister op.reg .unsupportedInstruction else s).getRegister r).isKnown ↔
        (s.getRegister r).isKnown ∧ ¬ (op.kind = .reg ∧ i.isWritten op.number ∧ op.reg = r) := by
    split
    · rename_i written
      rw [known_invalidateRegister, and_congr_right_iff]
      intro _
      simp only [written.1, written.2, true_and, ne_eq, not_iff_not]
      exact eq_comm
    · rename_i unwritten
      simp only [iff_self_and]
      intro _ lost
      exact unwritten ⟨lost.1, lost.2.1⟩
  rw [invalidateWrittenRegisters, known_foldl _ each, FlagsRegister]
  simp

theorem known_invalidatePartial :
    ((self.invalidatePartial i s op).getRegister r).isKnown ↔ (s.getRegister r).isKnown ∧
      ¬ ((op.kind = .reg ∧ i.isWritten op.number) ∧
        ∃ view, op.reg.bind (self.port.registerView · op.dtypeSize) = some view ∧
          view.writeDefinesParent = false ∧ (r = op.reg ∨ r = some view.parent)) := by
  unfold invalidatePartial
  by_cases written : op.kind = .reg ∧ i.isWritten op.number
  · rw [if_pos written]
    cases op.reg.bind (self.port.registerView · op.dtypeSize) with
    | none => simp
    | some view =>
        dsimp only
        cases whole : view.writeDefinesParent with
        | true => simp [whole]
        | false =>
            rw [if_neg Bool.false_ne_true]
            split
            · rw [known_invalidateRegister, known_invalidateRegister]
              simp [written, whole, and_assoc, and_comm]
            · rename_i own
              rw [ne_eq, not_not] at own
              rw [known_invalidateRegister]
              simp [written, whole, own]
  · rw [if_neg written]
    simp [written]

/-- Partial writes take exactly their own registers and parents. -/
theorem known_invalidatePartialRegisterWrites :
    ((self.invalidatePartialRegisterWrites i s).getRegister r).isKnown ↔
      (s.getRegister r).isKnown ∧ ¬ self.WritesPart i r := by
  rw [invalidatePartialRegisterWrites, known_foldl (h := self.invalidatePartial i) _
    fun op s => known_invalidatePartial]
  simp [WritesPart]

theorem known_step : ((self.step i s funcEa).getRegister r).isKnown ↔
    ((self.stepTransfer i s funcEa).getRegister r).isKnown ∧ ¬ self.WritesPart i r :=
  known_invalidatePartialRegisterWrites

/-- A row of changes that leave a location alone leaves it alone. -/
theorem read_foldl {α : Type} {h : AbstractState → α → AbstractState} {xs : List α}
    (loc : Location) (each : ∀ x ∈ xs, ∀ s, (h s x).read loc = s.read loc) (s : AbstractState) :
    (xs.foldl h s).read loc = s.read loc := by
  induction xs generalizing s with
  | nil => rfl
  | cons x xs ih =>
      rw [List.foldl_cons, ih fun y member => each y (List.mem_cons_of_mem _ member)]
      exact each x List.mem_cons_self s

theorem getRegister_invalidatePartial (whole : ¬ self.WritesPart i r) :
    (self.invalidatePartialRegisterWrites i s).getRegister r = s.getRegister r := by
  apply read_foldl (.reg r)
  intro op member s
  unfold invalidatePartial
  split
  · rename_i written
    split
    · rfl
    · rename_i view known
      split
      · rfl
      · rename_i part
        have apart (q : Option Nat) (inside : q = op.reg ∨ q = some view.parent) : r ≠ q := by
          rintro rfl
          exact whole ⟨op, member, written, view, known, Bool.not_eq_true _ ▸ part, inside⟩
        have parent : Location.reg r ≠ .reg (some view.parent) := by
          simpa using apart _ (Or.inr rfl)
        have own : Location.reg r ≠ .reg op.reg := by simpa using apart _ (Or.inl rfl)
        split
        · rw [read_invalidateRegister, if_neg own, read_invalidateRegister, if_neg parent]
        · rw [read_invalidateRegister, if_neg parent]
  · rfl

/-- The written registers read unknown if the transfer function or a partial write takes them. -/
theorem writtenUnknown_step : WrittenUnknown i (self.step i s funcEa) ↔
    ∀ r, FlagsRegister i r →
      self.WritesPart i r ∨ ((self.stepTransfer i s funcEa).getRegister r).isKnown = false := by
  apply forall₂_congr
  intro r _
  rw [← Bool.not_eq_true, ← Bool.not_eq_true, known_step]
  tauto

theorem stepTransfer_shaped (notCall : i.isCall = false)
    (shaped : ∀ l, self.registry.findMatch i = some l → l.definesForwardSemantics = false) :
    self.stepTransfer i s funcEa = self.transferByShape i s funcEa := by
  rw [stepTransfer, if_neg (by simp [notCall])]
  cases found : self.registry.findMatch i with
  | none => rfl
  | some l => exact if_neg (by simp [shaped l found])

theorem exists_memoryOperand {written : Bool} (member : op ∈ i.operands) (memory : op.isMemory)
    (flag : i.isWritten op.number = written) : ∃ last, memoryOperand i written = some last := by
  apply Option.ne_none_iff_exists'.mp
  intro none'
  have listed : op ∈ i.operands.filter fun op => op.isMemory ∧ i.isWritten op.number = written := by
    simp [member, memory, flag]
  rw [List.getLast?_eq_none_iff.mp none'] at listed
  cases listed

/-! ## Stores -/

theorem getRegister_applyMemoryStore :
    (self.applyMemoryStore i op s funcEa).getRegister r = s.getRegister r := by
  unfold applyMemoryStore
  split
  · unfold invalidatePossiblyAliasedStack
    split <;> rfl
  · split <;> rfl

/-- After an instruction that writes memory, and whose locator has no transfer function of its
own, the written registers read unknown if and only if each of them did so before or is written
in part only: the store path leaves registers alone. -/
theorem step_store_unknown_iff (notCall : i.isCall = false)
    (store : ∃ op ∈ i.operands, op.isMemory ∧ i.isWritten op.number)
    (shaped : ∀ l, self.registry.findMatch i = some l → l.definesForwardSemantics = false) :
    WrittenUnknown i (self.step i s funcEa) ↔
      ∀ r, FlagsRegister i r → self.WritesPart i r ∨ (s.getRegister r).isKnown = false := by
  rcases store with ⟨op, member, memory, written⟩
  rcases exists_memoryOperand member memory written with ⟨dst, found⟩
  rw [writtenUnknown_step, stepTransfer_shaped notCall shaped, transferByShape, found]
  simp only [getRegister_applyMemoryStore]

/-! ## Instructions without a locator -/

/-- What the load path leaves in a written register is known: the first one when it takes a
cell that the state knows, every other one when the state knows it. -/
def LoadLeavesKnown (self : ForwardSymbolicEngine) (i : Instruction) (s : AbstractState)
    (funcEa : Nat) (r : Option Nat) : Prop :=
  ∃ dst src, registerDestination i = some dst ∧ memoryOperand i false = some src ∧
    if r = dst.reg then
      i.isPureDefinitionOf dst.number ∧
        ∃ key, self.stackKey src i.ea funcEa = some key ∧ (s.getStack key).isKnown
    else (s.getRegister r).isKnown

theorem exists_registerDestination (flagged : FlagsRegister i r) :
    ∃ dst, registerDestination i = some dst := by
  rcases flagged with ⟨op, member, kind, written, -⟩
  apply Option.ne_none_iff_exists'.mp
  intro none'
  have refused := List.find?_eq_none.mp none' op member
  simp [kind, written] at refused

theorem known_applyMemoryLoad {dst src : Operand} (first : registerDestination i = some dst)
    (source : memoryOperand i false = some src) :
    ((self.applyMemoryLoad i src s funcEa).getRegister r).isKnown ↔
      self.LoadLeavesKnown i s funcEa r := by
  have shape : self.LoadLeavesKnown i s funcEa r ↔
      if r = dst.reg then i.isPureDefinitionOf dst.number ∧
        ∃ key, self.stackKey src i.ea funcEa = some key ∧ (s.getStack key).isKnown
      else (s.getRegister r).isKnown := by
    unfold LoadLeavesKnown
    rw [first, source]
    constructor
    · intro leaves
      rcases leaves with ⟨dst', src', same, same', left⟩
      cases same
      cases same'
      exact left
    · intro left
      exact ⟨dst, src, rfl, rfl, left⟩
  rw [shape, applyMemoryLoad, first]
  dsimp only
  by_cases pure' : i.isPureDefinitionOf dst.number
  · rw [if_pos pure']
    cases self.stackKey src i.ea funcEa with
    | none =>
        rw [invalidateRegister, known_setRegister]
        simp
    | some key =>
        rw [known_setRegister]
        simp [pure']
  · rw [if_neg pure', invalidateRegister, known_setRegister]
    simp [pure']

/-- After an instruction that no locator matches and that writes no memory, the written
registers read unknown if and only if each of them is written in part only or the load path
leaves nothing known in it. -/
theorem step_unmatched_unknown_iff (notCall : i.isCall = false)
    (unmatched : self.registry.findMatch i = none)
    (noStore : ∀ op ∈ i.operands, op.isMemory → i.isWritten op.number = false) :
    WrittenUnknown i (self.step i s funcEa) ↔
      ∀ r, FlagsRegister i r → self.WritesPart i r ∨ ¬ self.LoadLeavesKnown i s funcEa r := by
  have shaped : ∀ l, self.registry.findMatch i = some l → l.definesForwardSemantics = false := by
    intro l found
    rw [unmatched] at found
    cases found
  have unwritten : memoryOperand i true = none := by
    apply memoryOperand_eq_none
    intro op member memory
    simp [noStore op member memory]
  rw [writtenUnknown_step, stepTransfer_shaped notCall shaped, transferByShape, unwritten]
  apply forall₂_congr
  intro r flagged
  rcases exists_registerDestination flagged with ⟨dst, first⟩
  rw [← Bool.not_eq_true]
  cases source : memoryOperand i false with
  | none =>
      dsimp only
      rw [unmatched]
      dsimp only
      rw [known_invalidateWritten]
      simp [flagged, LoadLeavesKnown, source]
  | some src =>
      dsimp only
      rw [known_applyMemoryLoad first source]

/-! ## Locators that raise -/

/-- The instruction is flagged as writing the location: a register operand, the cell that a
memory operand names, or, where it names none, any cell that it may hit. -/
inductive MayWrite (self : ForwardSymbolicEngine) (funcEa : Nat) (i : Instruction) :
    Location → Prop
  | named {loc : Location} : Writes self funcEa i loc → MayWrite self funcEa i loc
  | somewhere {op : Operand} {k : StackKey} : op ∈ i.operands → i.isWritten op.number →
    op.isMemory → self.stackKey op i.ea funcEa = none → self.isStackRelative op →
    MayWrite self funcEa i (.cell k)

/-- `t` is `s` except that what the instruction is flagged as writing reads unknown. -/
def Contained (self : ForwardSymbolicEngine) (funcEa : Nat) (i : Instruction)
    (s t : AbstractState) : Prop :=
  ∀ loc, (self.MayWrite funcEa i loc → (t.read loc).isKnown = false) ∧
    (¬ self.MayWrite funcEa i loc → t.read loc = s.read loc)

theorem mayWrite_register : self.MayWrite funcEa i (.reg r) ↔ FlagsRegister i r := by
  constructor
  · intro may
    cases may with
    | named writes =>
        cases writes with
        | reg member written kind => exact ⟨_, member, kind, written, rfl⟩
  · intro flagged
    rcases flagged with ⟨op, member, kind, written, rfl⟩
    exact .named (.reg member written kind)

theorem read_invalidateWritten {loc : Location} (apart : ∀ r, loc = .reg r → ¬ FlagsRegister i r) :
    (invalidateWrittenRegisters i s).read loc = s.read loc := by
  apply read_foldl
  intro op member s
  split
  · rename_i written
    rw [read_invalidateRegister, if_neg]
    intro same
    exact apart op.reg same ⟨op, member, written.1, written.2, rfl⟩
  · rfl

/-- A locator that raises and leaves the state `t` is contained if and only if `t` is what the
state was outside the written registers, up to written cells that already read unknown: nothing
that the locator did is undone, and written cells are not invalidated. -/
theorem applyLocator_contained_iff {l : Locator} {t : AbstractState}
    (raised : l.runForward i s = .error t) :
    self.Contained funcEa i s (applyLocator l i s) ↔
      (∀ loc, ¬ self.MayWrite funcEa i loc → t.read loc = s.read loc) ∧
        ∀ k, self.MayWrite funcEa i (.cell k) → (t.getStack k).isKnown = false := by
  have left : applyLocator l i s = invalidateWrittenRegisters i t := by
    rw [applyLocator, raised]
  rw [left]
  have outside (loc : Location) (apart : ¬ self.MayWrite funcEa i loc) :
      (invalidateWrittenRegisters i t).read loc = t.read loc := by
    apply read_invalidateWritten
    intro r same flagged
    subst same
    exact apart (mayWrite_register.mpr flagged)
  have cell (k : StackKey) : (invalidateWrittenRegisters i t).read (.cell k) = t.getStack k :=
    read_invalidateWritten fun r same => by cases same
  constructor
  · intro contained
    constructor
    · intro loc apart
      rw [← outside loc apart]
      exact (contained loc).2 apart
    · intro k may
      rw [← cell]
      exact (contained (.cell k)).1 may
  · intro kept loc
    constructor
    · intro may
      cases loc with
      | reg r =>
          apply Bool.eq_false_iff.mpr
          intro known
          exact (known_invalidateWritten.mp known).2 (mayWrite_register.mp may)
      | cell k =>
          rw [cell]
          exact kept.2 k may
    · intro apart
      rw [outside loc apart]
      exact kept.1 loc apart

end ForwardSymbolicEngine

/-! ## Three instructions that leave stale values -/

namespace StaleWrites

open ForwardSymbolicEngine

def engine : ForwardSymbolicEngine where
  port := FakeIdaPort.toPort { pointerSize := 4, instructions := [], funcBounds := [] }
  registry := defaultRegistry

/-- The seeded state with a known cell at `[ebp-8]`. -/
def state : AbstractState :=
  (seed 0 0).setStack (.fp (-8)) (.concrete (.int 1) .int)

/-- `xadd [ebp-8], eax`. -/
def xadd : Instruction :=
  { FakeIdaPort.insn 0x401000 "xadd" 4 [FakeIdaPort.memDispl 0 5 (-8), FakeIdaPort.reg 1 0] with
    operandWritten := [true, true]
    operandRead := [true, true] }

/-- `bsf eax, [ebp-8]`. -/
def bsf : Instruction :=
  FakeIdaPort.insn 0x401000 "bsf" 4 [FakeIdaPort.reg 0 0, FakeIdaPort.memDispl 1 5 (-8)]

/-- A locator for `fistp` that sets a register of its own and raises. -/
def raising : Locator where
  name := "raising"
  accepts i := some (i.mnem = "fistp")
  extract _ _ _ _ := Extraction.raised
  applyForward := some fun _ s => .error (s.setRegister (some 3) (.concrete (.int 7) .int))
  extract_total _ _ _ _ := .pure _

/-- `fistp [ebp-8]`. -/
def fistp : Instruction := FakeIdaPort.insn 0x401000 "fistp" 3 [FakeIdaPort.memDispl 0 5 (-8)]

/-- The register of an exchange with memory still reads as the argument. -/
theorem xadd_leaves_argument :
    xadd.isCall = false ∧ defaultRegistry.findMatch xadd = none ∧
      ¬ WrittenUnknown xadd (engine.step xadd state 0x401000) := by
  refine ⟨by decide, by decide, ?_⟩
  intro unknown
  have read := unknown (some 0) ⟨FakeIdaPort.reg 1 0, by decide, rfl, rfl, rfl⟩
  revert read
  decide

/-- The scanned cell is reported as the index of its lowest bit. -/
theorem bsf_loads_cell :
    bsf.isCall = false ∧ defaultRegistry.findMatch bsf = none ∧
      ¬ WrittenUnknown bsf (engine.step bsf state 0x401000) := by
  refine ⟨by decide, by decide, ?_⟩
  intro unknown
  have read := unknown (some 0) ⟨FakeIdaPort.reg 0 0, by decide, rfl, rfl, rfl⟩
  revert read
  decide

/-- What the locator set before it raised stays, and the written cell keeps its value. -/
theorem raising_not_contained :
    raising.accepts fistp = some true ∧
      ¬ engine.Contained 0x401000 fistp state (applyLocator raising fistp state) := by
  refine ⟨by decide, ?_⟩
  intro contained
  have member : FakeIdaPort.memDispl 0 5 (-8) ∈ fistp.operands := by decide
  have cell := (contained (.cell (.fp (-8)))).1 (.named (.cell member rfl rfl (by decide)))
  revert cell
  decide

/-- When nothing is known of the exchanged register, it is read as unknown afterwards. -/
theorem xadd_unknown_elsewhere :
    WrittenUnknown xadd (engine.step xadd (seed 1 0) 0x401000) := by
  have store : ∃ op ∈ xadd.operands, op.isMemory ∧ xadd.isWritten op.number :=
    ⟨FakeIdaPort.memDispl 0 5 (-8), by decide, rfl, rfl⟩
  refine (step_store_unknown_iff (by decide) store ?_).mpr ?_
  · intro l found
    rw [show engine.registry.findMatch xadd = none by decide] at found
    cases found
  · intro r flagged
    rcases flagged with ⟨op, member, kind, -, rfl⟩
    right
    revert op
    decide

/-- A cell of which nothing is known leaves nothing known in the register. -/
theorem bsf_unknown_cell : WrittenUnknown bsf (engine.step bsf (seed 0 0) 0x401000) := by
  refine (step_unmatched_unknown_iff (by decide) (by decide) (by decide)).mpr ?_
  intro r flagged
  rcases flagged with ⟨op, member, kind, written, rfl⟩
  right
  intro left
  rcases left with ⟨dst, src, first, loaded, known⟩
  have toEax : registerDestination bsf = some (FakeIdaPort.reg 0 0) := by decide
  have fromCell : memoryOperand bsf false = some (FakeIdaPort.memDispl 1 5 (-8)) := by decide
  obtain rfl := Option.some.inj (first.symm.trans toEax)
  obtain rfl := Option.some.inj (loaded.symm.trans fromCell)
  have same : op.reg = (FakeIdaPort.reg 0 0).reg := by
    clear known
    revert op
    decide
  rw [if_pos same] at known
  rcases known with ⟨-, key, at', known⟩
  have named : engine.stackKey (FakeIdaPort.memDispl 1 5 (-8)) bsf.ea 0x401000 =
      some (.fp (-8)) := by decide
  obtain rfl := Option.some.inj (at'.symm.trans named)
  revert known
  decide

/-- The state in which the register already holds what `raising` sets. -/
def settled : AbstractState := AbstractState.empty.setRegister (some 3) (.concrete (.int 7) .int)

/-- There the locator raises without having changed anything. -/
theorem raising_contained_settled :
    engine.Contained 0x401000 fistp settled (applyLocator raising fistp settled) := by
  refine (applyLocator_contained_iff rfl).mpr ⟨?_, fun _ _ => rfl⟩
  intro loc _
  rw [AbstractState.read_setRegister]
  split
  · rename_i here
    rw [here, settled, AbstractState.read_setRegister, if_pos rfl]
  · rfl

end StaleWrites

end IDAnalysister
