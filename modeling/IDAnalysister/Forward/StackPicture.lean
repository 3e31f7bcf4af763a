import IDAnalysister.Backward.StackRows
import IDAnalysister.Forward.Clobbers
import IDAnalysister.Forward.Overlap
import IDAnalysister.Library.StackFrame
import IDAnalysister.Reading

/-!
# The forward engine's picture of the stack

The state that `_simulate_block` carries, next to a machine that makes the same stores, loads,
pushes, pops and additions to the stack pointer. The transfer function sees `push` and `pop` by
their operands alone: neither the cell that a push writes nor the stack pointer is one, and a
store replaces the cell of its own offset only. `registers_hold_of_undisturbed` says that the
picture stays right along every run whose steps leave the other known cells alone.
-/

namespace IDAnalysister

open Bytes StackMachine

/-! ## Steps -/

/-- A step of the stack machine, `mov [sp+disp], r`, or `mov r, [sp+disp]`. -/
inductive SpStep (width : Nat)
  | step (a : Step Nat width)
  | store (disp : Int) (r : Nat)
  | load (r : Nat) (disp : Int)
  deriving DecidableEq

/-- The step on the machine. -/
def SpStep.access {width : Nat} : SpStep width → Access Nat width
  | step a => .step a
  | store disp r => .store (BitVec.ofInt _ disp) (.reg r)
  | load r disp => .load r (BitVec.ofInt _ disp)

/-- The operand is the word at `[sp+disp]`. -/
structure SpCell (op : Operand) (sp width : Nat) (disp : Int) : Prop where
  kind : op.kind = .memDispl ∨ op.kind = .memPhrase
  base : op.reg = some sp
  disp : op.disp = disp
  size : op.dtypeSize = width
  noIndex : op.hasIndex = false
  noSegment : op.hasSegment = false

/-- The instruction makes the step. A `mov` does not read its destination. -/
inductive SpForm (port : IdaPort) (sp width : Nat) (i : Instruction) : SpStep width → Prop
  | step {a : Step Nat width} : StackForm port sp width i a → SpForm port sp width i (.step a)
  | store {a b : Operand} {disp : Int} {r : Nat} : i.mnem = "mov" → Pair i a b true false →
    SpCell a sp width disp → RegOperand port (width * 8) b r → i.isPureDefinitionOf 0 →
    SpForm port sp width i (.store disp r)
  | load {a b : Operand} {disp : Int} {r : Nat} : i.mnem = "mov" → Pair i a b true false →
    RegOperand port (width * 8) a r → SpCell b sp width disp → i.isPureDefinitionOf 0 →
    SpForm port sp width i (.load r disp)

/-- The instructions make the steps, each at the delta that the port reports for it. -/
def SpRow (port : IdaPort) (funcEa sp width : Nat) (is : List Instruction)
    (steps : List (Int × SpStep width)) : Prop :=
  List.Forall₂ (fun i t => port.getSpDelta funcEa i.ea = some t.1 ∧ SpForm port sp width i t.2)
    is steps

/-- The steps on the machine, from `m`. -/
def runAccesses {width : Nat} (sp : Nat) (steps : List (Int × SpStep width))
    (m : State Nat width) : State Nat width :=
  Access.run sp (steps.map (·.2.access)) m

/-- Each delta is how far the stack pointer is from `base` when its step is made. -/
def DeltasExact {width : Nat} (sp : Nat) (base : BitVec (width * 8))
    (steps : List (Int × SpStep width)) (m : State Nat width) : Prop :=
  ∀ before t after, steps = before ++ t :: after →
    (runAccesses sp before m).regs sp = base + BitVec.ofInt _ t.1

/-! ## What the engine makes of a step -/

namespace ForwardSymbolicEngine

open AbstractState

/-- The state behind a step at a delta, up to writes that cover a register in part. -/
def perceive {width : Nat} (sp : Nat) (δ : Int) (s : AbstractState) : SpStep width → AbstractState
  | .step (.push _) => s
  | .step (.pop r) => s.invalidateRegister (some r) .unsupportedInstruction
  | .step (.mov r (.imm n)) => s.setRegister (some r) (.concrete (.int n.toNat) .int)
  | .step (.mov r (.reg q)) => s.setRegister (some r) (s.getRegister (some q))
  | .step (.add n) =>
      s.setRegister (some sp) (forwardAddSub (s.getRegister (some sp)) n.toNat width)
  | .step (.sub n) =>
      s.setRegister (some sp) (forwardAddSub (s.getRegister (some sp)) (-n.toNat) width)
  | .store disp r => s.setStack (.sp (δ + disp)) (s.getRegister (some r))
  | .load r disp => s.setRegister (some r) (s.getStack (.sp (δ + disp)))

variable {self : ForwardSymbolicEngine} {i : Instruction} {s : AbstractState}
variable {funcEa sp width : Nat} {disp δ : Int} {op : Operand}

theorem stackKey_sp (cell : SpCell op sp width disp) (pointer : self.port.stackPointerReg = some sp)
    {ea : Nat} (reported : self.port.getSpDelta funcEa ea = some δ) :
    self.stackKey op ea funcEa = some (.sp (δ + disp)) := by
  rcases cell.kind with kind | kind <;>
    simp [stackKey, kind, cell.base, cell.noIndex, cell.noSegment, pointer, reported, cell.disp]

/-- Without memory operands the transfer function goes by the locator alone. -/
theorem transferByShape_plain (plain : ∀ op ∈ i.operands, op.isMemory = false) :
    self.transferByShape i s funcEa =
      match self.registry.findMatch i with
      | some l => applyLocator l i s
      | none => invalidateWrittenRegisters i s := by
  have none' (written : Bool) : memoryOperand i written = none := by
    apply memoryOperand_eq_none
    intro op member memory
    simp [plain op member] at memory
  cases found : self.registry.findMatch i with
  | none => simp [transferByShape, none', found]
  | some l => simp [transferByShape, none', found]

/-- A push leaves the state as it is. -/
theorem stepTransfer_push (builtin : self.registry = defaultRegistry) (mnem : i.mnem = "push")
    (operands : i.operands = [op]) (number : op.number = 0) (flag : i.isWritten 0 = false)
    (plain : op.isMemory = false) : self.stepTransfer i s funcEa = s := by
  have notCall : i.isCall = false := not_isCall_of_mnem mnem (by decide)
  have first : (i.operand 0).isSome := by simp [Instruction.operand, operands, number]
  have matched := findMatch_push mnem first
  rw [← builtin] at matched
  have only : ∀ op' ∈ i.operands, op'.isMemory = false := by
    intro op' member
    rw [operands, List.mem_singleton] at member
    rw [member, plain]
  rw [stepTransfer_shape notCall matched rfl, transferByShape_plain only, matched]
  dsimp only
  rw [applyLocator_default rfl, invalidateWrittenRegisters, operands]
  simp [number, flag]

/-- A pop loses its register. -/
theorem stepTransfer_pop (builtin : self.registry = defaultRegistry) (mnem : i.mnem = "pop")
    (operands : i.operands = [op]) (number : op.number = 0) (flag : i.isWritten 0 = true)
    (kind : op.kind = .reg) :
    self.stepTransfer i s funcEa = s.invalidateRegister op.reg .unsupportedInstruction := by
  have notCall : i.isCall = false := not_isCall_of_mnem mnem (by decide)
  have unmatched := findMatch_pop mnem
  rw [← builtin] at unmatched
  have only : ∀ op' ∈ i.operands, op'.isMemory = false := by
    intro op' member
    rw [operands, List.mem_singleton] at member
    rw [member, Operand.isMemory_of_reg kind]
  have shaped : self.stepTransfer i s funcEa = self.transferByShape i s funcEa := by
    apply stepTransfer_shaped notCall
    intro l found
    rw [unmatched] at found
    cases found
  rw [shaped, transferByShape_plain only, unmatched]
  dsimp only
  rw [invalidateWrittenRegisters, operands]
  simp [number, flag, kind]

theorem stepTransfer_addSub (builtin : self.registry = defaultRegistry)
    (mnem : i.mnem = "add" ∨ i.mnem = "sub") {a b : Operand} {n : Int}
    (pair : Pair i a b true false) (dest : RegOperand self.port (width * 8) a sp)
    (imm : ImmOperand (width * 8) b n) :
    self.stepTransfer i s funcEa = s.setRegister (some sp)
      (forwardAddSub (s.getRegister (some sp)) (if i.mnem = "add" then n else -n) width) := by
  have notCall : i.isCall = false := by
    rcases mnem with mnem | mnem <;> exact not_isCall_of_mnem mnem (by decide)
  have matched := findMatch_addSub mnem pair dest.kind imm.kind
  rw [← builtin] at matched
  have amount : addSubDelta i b = some (if i.mnem = "add" then n else -n) := by
    rw [addSubDelta, imm.value, Option.map_some]
  have size : a.dtypeSize = width := Nat.eq_of_mul_eq_mul_right (by decide) dest.width
  rw [stepTransfer_forward notCall matched rfl,
    applyLocator_addSubRegImm pair.operand_zero pair.operand_one amount, dest.reg, size]

/-- The transfer function sees a step as `perceive` says. -/
theorem stepTransfer_spForm (builtin : self.registry = defaultRegistry)
    (pointer : self.port.stackPointerReg = some sp) {a : SpStep width}
    (form : SpForm self.port sp width i a)
    (reported : self.port.getSpDelta funcEa i.ea = some δ) :
    self.stepTransfer i s funcEa = perceive sp δ s a := by
  cases form with
  | step form =>
      have notCall := form.not_isCall
      cases form with
      | pushImm mnem operands number flag operand =>
          apply stepTransfer_push builtin mnem operands number flag
          simp [Operand.isMemory, operand.kind]
      | pushReg mnem operands number flag operand =>
          exact stepTransfer_push builtin mnem operands number flag
            (Operand.isMemory_of_reg operand.kind)
      | pop mnem operands number flag operand =>
          rw [stepTransfer_pop builtin mnem operands number flag operand.kind, operand.reg]
          rfl
      | movImm mnem pair dest src =>
          have matched := findMatch_movImm mnem pair dest.kind src.kind
          rw [← builtin] at matched
          rw [stepTransfer_forward notCall matched rfl,
            applyLocator_movRegImm pair.operand_zero pair.operand_one, dest.reg, src.value]
          rfl
      | movReg mnem pair dest src =>
          have matched := findMatch_movReg mnem pair dest.kind src.kind
          rw [← builtin] at matched
          rw [stepTransfer_forward notCall matched rfl,
            applyLocator_movRegReg pair.operand_zero pair.operand_one, dest.reg, src.reg]
          rfl
      | add mnem pair dest src =>
          rw [stepTransfer_addSub builtin (Or.inl mnem) pair dest src, if_pos mnem]
          rfl
      | sub mnem pair dest src =>
          have other : i.mnem ≠ "add" := by
            rw [mnem]
            decide
          rw [stepTransfer_addSub builtin (Or.inr mnem) pair dest src, if_neg other]
          rfl
  | @store a b disp r mnem pair cell src pure' =>
      have memory : a.isMemory = true := by
        rcases cell.kind with kind | kind <;> simp [Operand.isMemory, kind]
      have notCall : i.isCall = false := not_isCall_of_mnem mnem (by decide)
      have matched := findMatch_movMemReg mnem pair memory src.kind
      rw [← builtin] at matched
      rw [stepTransfer_store notCall matched rfl pair memory (stackKey_sp cell pointer reported)
        pure', valueOfSource, if_pos src.kind, src.reg]
      rfl
  | @load a b disp r mnem pair dest cell pure' =>
      have memory : b.isMemory = true := by
        rcases cell.kind with kind | kind <;> simp [Operand.isMemory, kind]
      have notCall : i.isCall = false := not_isCall_of_mnem mnem (by decide)
      have matched := findMatch_movRegMem mnem pair dest.kind memory
      rw [← builtin] at matched
      rw [stepTransfer_load notCall matched rfl pair dest.kind memory
        (stackKey_sp cell pointer reported) pure', dest.reg]
      rfl

end ForwardSymbolicEngine

/-! ## The picture of the machine -/

open ForwardSymbolicEngine ValueLattice

namespace SpStep

variable {width : Nat}

/-- The offset, from where the delta counts, that the step writes at. -/
def target (δ : Int) : SpStep width → Option Int
  | .step (.push _) => some (δ - width)
  | .store disp _ => some (δ + disp)
  | _ => none

/-- The offset whose entry the engine replaces. -/
def replaced (δ : Int) : SpStep width → Option Int
  | .store disp _ => some (δ + disp)
  | _ => none

/-- The step moves the stack pointer as a side effect. -/
def Drags (sp : Nat) : SpStep width → Prop
  | .step (.push _) => True
  | .step (.pop r) => r ≠ sp
  | _ => False

end SpStep

/-- The word at an offset from where deltas count. -/
def spCell (width : Nat) (offset : Int) : Cell (BitVec (width * 8)) :=
  ⟨BitVec.ofInt _ offset, width⟩

/-- The step writes over no known cell but the one whose entry the engine replaces, and drags
the stack pointer along only where that register is not known. -/
structure Undisturbed {width : Nat} (sp : Nat) (δ : Int) (s : AbstractState) (a : SpStep width) :
    Prop where
  cells : ∀ x, a.target δ = some x → ∀ k, a.replaced δ ≠ some k → (s.getStack (.sp k)).isKnown →
    ¬ (spCell width x).Overlaps (spCell width k)
  pointer : a.Drags sp → (s.getRegister (some sp)).isKnown = false

/-- Every known pointer-size register is right about the word in it. -/
def RegistersHold {W : Nat} (port : IdaPort) (ρ : Reading W) (s : AbstractState)
    (regs : Nat → BitVec W) : Prop :=
  ∀ r, WholeReg port W r → (s.getRegister (some r)).Holds ρ (regs r)

/-- Every known register, and every known cell, is right; offsets count from `base`. -/
structure Picture {width : Nat} (port : IdaPort) (ρ : Reading (width * 8))
    (base : BitVec (width * 8)) (s : AbstractState) (m : State Nat width) : Prop where
  registers : RegistersHold port ρ s m.regs
  cells : ∀ k, (s.getStack (.sp k)).Holds ρ
    (BitVec.ofNat _ (Bytes.read m.mem (base + BitVec.ofInt _ k) width))

section Registers

variable {W : Nat} {port : IdaPort} {ρ : Reading W} {s : AbstractState} {regs : Nat → BitVec W}
variable {r sp : Nat} {v : ValueLattice} {x : BitVec W}

/-- Setting a register to a right value keeps the registers right. -/
theorem RegistersHold.set (right : RegistersHold port ρ s regs) (value : v.Holds ρ x) :
    RegistersHold port ρ (s.setRegister (some r) v) (Function.update regs r x) := by
  intro q whole
  have back := AbstractState.read_setRegister s (some r) v (.reg (some q))
  simp only [AbstractState.read, Location.reg.injEq, Option.some.injEq] at back
  rw [back]
  by_cases same : q = r
  · subst same
    rw [if_pos rfl, Function.update_self]
    exact value
  · rw [if_neg same, Function.update_of_ne same]
    exact right q whole

/-- A register that is not known may hold any word. -/
theorem RegistersHold.drag (right : RegistersHold port ρ s regs)
    (unknown : (s.getRegister (some sp)).isKnown = false) :
    RegistersHold port ρ s (Function.update regs sp x) := by
  intro q whole
  by_cases same : q = sp
  · subst same
    exact ValueLattice.holds_of_unknown unknown
  · rw [Function.update_of_ne same]
    exact right q whole

end Registers

/-- Wrapping to the operand's size does not change the word. -/
theorem ofInt_wrapToWidth {W size : Nat} (width : size * 8 = W) (positive : 0 < W) (le : W ≤ 64)
    (n : Int) : BitVec.ofInt W (wrapToWidth n size) = BitVec.ofInt W n := by
  have sum := wrapToWidth_add width positive le 0#W n
  rw [BitVec.toNat_zero, Nat.cast_zero, zero_add, BitVec.zero_add] at sum
  rw [sum, BitVec.ofInt_natCast, BitVec.ofNat_toNat, BitVec.setWidth_eq]

/-- The sum is right about the prior word, moved. -/
theorem ValueLattice.Holds.forwardAddSub {W size : Nat} {ρ : Reading W} {v : ValueLattice}
    {x : BitVec W} (right : v.Holds ρ x) (width : size * 8 = W) (positive : 0 < W) (le : W ≤ 64)
    (delta : Int) : (ForwardSymbolicEngine.forwardAddSub v delta size).Holds ρ
      (x + BitVec.ofInt W delta) := by
  unfold ForwardSymbolicEngine.forwardAddSub
  cases known : v.intOf with
  | none =>
      dsimp only
      split
      · exact holds_unknown _ _
      · rename_i unknown
        exact holds_of_unknown (Bool.not_eq_true _ ▸ unknown)
  | some n =>
      rcases intOf_eq_some known with ⟨kind, rfl⟩
      rw [holds_int] at right ⊢
      rw [ofInt_wrapToWidth width positive le, BitVec.ofInt_add, right]

section Steps

variable {self : ForwardSymbolicEngine} {i : Instruction} {s : AbstractState}
variable {width sp funcEa : Nat} {ρ : Reading (width * 8)} {base : BitVec (width * 8)}
variable {m : State Nat width} {δ : Int} {a : SpStep width} {k : Int}

/-- The step writes its target. -/
theorem wrote_target (exact' : m.regs sp = base + BitVec.ofInt _ δ)
    {c : Cell (BitVec (width * 8)) × Nat} (wrote : a.access.wrote sp m = some c) :
    ∃ x, a.target δ = some x ∧ c.1 = ⟨base + BitVec.ofInt _ x, width⟩ := by
  cases a with
  | step b =>
      cases b with
      | push o =>
          cases wrote
          refine ⟨_, rfl, ?_⟩
          rw [exact', Int.sub_eq_add_neg, BitVec.ofInt_add, BitVec.ofInt_neg, BitVec.ofInt_natCast,
            ← sub_eq_add_neg, add_sub_assoc]
          rfl
      | pop r => cases wrote
      | mov r o => cases wrote
      | add n => cases wrote
      | sub n => cases wrote
  | store disp r =>
      cases wrote
      refine ⟨_, rfl, ?_⟩
      rw [exact', BitVec.ofInt_add, add_assoc]
  | load r disp => cases wrote

/-- A known cell whose entry stays is not written over. -/
theorem Undisturbed.read_exec (undisturbed : Undisturbed sp δ s a)
    (exact' : m.regs sp = base + BitVec.ofInt _ δ) (kept : a.replaced δ ≠ some k)
    (known : (s.getStack (.sp k)).isKnown) :
    Bytes.read (a.access.exec sp m).mem (base + BitVec.ofInt _ k) width =
      Bytes.read m.mem (base + BitVec.ofInt _ k) width := by
  apply Access.read_exec
  intro c wrote
  rcases wrote_target exact' wrote with ⟨x, target, place⟩
  rw [place, Cell.overlaps_add]
  exact undisturbed.cells x target k kept known

/-- A step leaves the cells it does not replace. -/
theorem getStack_perceive (kept : a.replaced δ ≠ some k) :
    (perceive sp δ s a).getStack (.sp k) = s.getStack (.sp k) := by
  cases a with
  | step b =>
      cases b with
      | push o => rfl
      | pop r => rfl
      | mov r o => cases o <;> rfl
      | add n => rfl
      | sub n => rfl
  | store disp r =>
      have back := AbstractState.read_setStack s (.sp (δ + disp)) (s.getRegister (some r))
        (.cell (.sp k))
      rwa [if_neg fun same => kept (by rw [Location.cell.inj same |> StackKey.sp.inj]; rfl)] at back
  | load r disp => rfl

variable {port : IdaPort}

/-- An undisturbed step keeps the registers right. -/
theorem Picture.registers_perceive (positive : 0 < width) (narrow : width ≤ 8)
    (picture : Picture port ρ base s m) (exact' : m.regs sp = base + BitVec.ofInt _ δ)
    (form : SpForm port sp width i a) (undisturbed : Undisturbed sp δ s a) :
    RegistersHold port ρ (perceive sp δ s a) (a.access.exec sp m).regs := by
  have right := picture.registers
  cases form with
  | step form =>
      cases form with
      | pushImm => exact right.drag (undisturbed.pointer trivial)
      | pushReg => exact right.drag (undisturbed.pointer trivial)
      | @pop op r mnem operands number flag operand =>
          by_cases pointer : r = sp
          · subst pointer
            have popped := right.set (r := r) (v := .unknown' .unsupportedInstruction)
              (x := BitVec.ofNat _ (Bytes.read m.mem (m.regs r) width)) (holds_unknown _ _)
            simpa [perceive, AbstractState.invalidateRegister, SpStep.access, Access.exec,
              StackMachine.exec] using popped
          · exact (right.drag (undisturbed.pointer pointer)).set (holds_unknown _ _)
      | movImm mnem pair dest src =>
          refine right.set (holds_int.mpr ?_)
          rw [BitVec.ofInt_natCast, BitVec.ofNat_toNat, BitVec.setWidth_eq]
          rfl
      | movReg mnem pair dest src => exact right.set (right _ src.whole)
      | @add c b n mnem pair dest src =>
          have sum := (right sp dest.whole).forwardAddSub rfl (by omega) (by omega) n.toNat
          rw [BitVec.ofInt_natCast, BitVec.ofNat_toNat, BitVec.setWidth_eq] at sum
          exact right.set sum
      | @sub c b n mnem pair dest src =>
          have sum := (right sp dest.whole).forwardAddSub rfl (by omega) (by omega) (-n.toNat)
          rw [BitVec.ofInt_neg, BitVec.ofInt_natCast, BitVec.ofNat_toNat, BitVec.setWidth_eq,
            ← sub_eq_add_neg] at sum
          exact right.set sum
  | store mnem pair cell src pure' => exact right
  | @load b c disp r mnem pair dest cell pure' =>
      apply right.set
      have loaded := picture.cells (δ + disp)
      rwa [BitVec.ofInt_add, ← add_assoc, ← exact'] at loaded

/-- An undisturbed step keeps the cells right. -/
theorem Picture.cells_perceive (picture : Picture port ρ base s m)
    (exact' : m.regs sp = base + BitVec.ofInt _ δ) (form : SpForm port sp width i a)
    (undisturbed : Undisturbed sp δ s a) (k : Int) :
    ((perceive sp δ s a).getStack (.sp k)).Holds ρ
      (BitVec.ofNat _ (Bytes.read (a.access.exec sp m).mem (base + BitVec.ofInt _ k) width)) := by
  by_cases replaced : a.replaced δ = some k
  · cases form with
    | step form => cases form <;> cases replaced
    | load => cases replaced
    | @store b c disp r mnem pair cell src pure' =>
        obtain rfl := Option.some.inj replaced
        have entry : (perceive sp δ s (.store disp r : SpStep width)).getStack
            (.sp (δ + disp)) = s.getRegister (some r) := by
          have back := AbstractState.read_setStack s (.sp (δ + disp)) (s.getRegister (some r))
            (.cell (.sp (δ + disp)))
          rwa [if_pos rfl] at back
        have stored : Bytes.read ((SpStep.store disp r).access.exec sp m).mem
            (base + BitVec.ofInt _ (δ + disp)) width = (m.regs r).toNat := by
          rw [BitVec.ofInt_add, ← add_assoc, ← exact']
          exact read_write ((roomy_word width).mono (Nat.le_succ width)) (toNat_lt _)
        rw [entry, stored, BitVec.ofNat_toNat, BitVec.setWidth_eq]
        exact picture.registers r src.whole
  · rw [getStack_perceive replaced]
    by_cases known : (s.getStack (.sp k)).isKnown
    · rw [undisturbed.read_exec exact' replaced known]
      exact picture.cells k
    · exact holds_of_unknown (Bool.not_eq_true _ ▸ known)

/-- A step keeps the picture. -/
theorem Picture.step (builtin : self.registry = defaultRegistry)
    (pointer : self.port.stackPointerReg = some sp) (positive : 0 < width) (narrow : width ≤ 8)
    (picture : Picture self.port ρ base s m) (exact' : m.regs sp = base + BitVec.ofInt _ δ)
    (reported : self.port.getSpDelta funcEa i.ea = some δ)
    (form : SpForm self.port sp width i a) (undisturbed : Undisturbed sp δ s a) :
    Picture self.port ρ base (self.step i s funcEa) (a.access.exec sp m) := by
  rw [ForwardSymbolicEngine.step, stepTransfer_spForm builtin pointer form reported]
  constructor
  · intro r whole
    have right := picture.registers_perceive positive narrow exact' form undisturbed r whole
    by_cases part : self.WritesPart i (some r)
    · apply holds_of_unknown
      apply Bool.eq_false_iff.mpr
      intro known
      exact (known_invalidatePartialRegisterWrites.mp known).2 part
    · rwa [getRegister_invalidatePartial part]
  · intro k
    rw [getStack_invalidatePartialRegisterWrites]
    exact picture.cells_perceive exact' form undisturbed k

end Steps

/-! ## Runs -/

/-- Every step of the run is undisturbed, in the state that the instructions before it leave. -/
def UndisturbedRun {width : Nat} (self : ForwardSymbolicEngine) (funcEa sp : Nat)
    (is : List Instruction) (steps : List (Int × SpStep width)) (s : AbstractState) : Prop :=
  ∀ before t after, steps = before ++ t :: after →
    Undisturbed sp t.1 (self.runSteps funcEa (is.take before.length) s) t.2

/-- The instructions of a row that `_simulate_block` runs. -/
def executed (is : List Instruction) : Option Nat → List Instruction
  | none => is
  | some ea => before is ea

section Run

variable {self : ForwardSymbolicEngine} {is : List Instruction} {s : AbstractState}
variable {width sp funcEa : Nat} {ρ : Reading (width * 8)} {base : BitVec (width * 8)}
variable {m : State Nat width} {steps : List (Int × SpStep width)}

/-- What is executed up to an address is the first part of the block. -/
theorem executed_extends {lo hi : Nat} (tiles : Tiles lo is hi) (stopBefore : Option Nat) :
    executed is stopBefore <+: is := by
  cases stopBefore with
  | none => exact List.prefix_rfl
  | some ea => exact tiles.before_extends ea

/-- After every prefix of an undisturbed run the picture is right. -/
theorem Picture.run (builtin : self.registry = defaultRegistry)
    (pointer : self.port.stackPointerReg = some sp) (positive : 0 < width) (narrow : width ≤ 8)
    (picture : Picture self.port ρ base s m) (row : SpRow self.port funcEa sp width is steps)
    (exact' : DeltasExact sp base steps m)
    (undisturbed : UndisturbedRun self funcEa sp is steps s)
    {before after : List (Int × SpStep width)} (split : steps = before ++ after) :
    Picture self.port ρ base (self.runSteps funcEa (is.take before.length) s)
      (runAccesses sp before m) := by
  induction before using List.reverseRecOn generalizing after with
  | nil => exact picture
  | append_singleton before t ih =>
      rw [List.append_assoc, List.singleton_append] at split
      have here := ih split
      have safe := undisturbed before t after split
      subst split
      rcases forall₂_split row with ⟨pre, i, post, rfl, early, ⟨reported, form⟩, -⟩
      have length : before.length = pre.length := early.length_eq.symm
      rw [length, List.take_left] at here safe
      have next : (pre ++ i :: post).take (before ++ [t]).length = pre ++ [i] := by
        have longer : (before ++ [t]).length = (pre ++ [i]).length := by simp [length]
        have cut : pre ++ i :: post = (pre ++ [i]) ++ post := List.append_cons ..
        rw [longer, cut, List.take_left]
      have moved : runAccesses sp (before ++ [t]) m =
          t.2.access.exec sp (runAccesses sp before m) := by
        simp [runAccesses]
      rw [next, moved, ForwardSymbolicEngine.runSteps_append, ForwardSymbolicEngine.runSteps_cons]
      exact here.step builtin pointer positive narrow (exact' before t after rfl) reported form safe

/-- A simulation runs the instructions that are executed up to its end. -/
theorem simulateBlock_executed {block : BasicBlockInfo} {bound used used' : Nat}
    {s' : AbstractState} {stopBefore : Option Nat}
    (tiles : Tiles block.startEa is block.endEa)
    (decoded : ∀ i ∈ is, self.port.decodeAt i.ea = some i)
    (simulated : self.simulateBlock bound funcEa block s used stopBefore =
      some (s', used', false)) :
    s' = self.runSteps funcEa (executed is stopBefore) s := by
  rcases self.simulate_eq_runSteps simulated with ⟨js, sweep, rfl⟩
  congr 1
  cases stopBefore with
  | none =>
      have sweep' := tiles.sweep decoded (Nat.le_refl _)
      rw [tiles.before_end] at sweep'
      exact sweep.unique sweep'
  | some ea =>
      have sweep' := tiles.sweep decoded (Nat.min_le_left block.endEa ea)
      rw [sweep.unique sweep', tiles.before_min]
      rfl

theorem undisturbedRun_nil :
    UndisturbedRun self funcEa sp is ([] : List (Int × SpStep width)) s := by
  intro before t after split
  cases before <;> cases split

theorem UndisturbedRun.cons {i : Instruction} {t : Int × SpStep width}
    (here : Undisturbed sp t.1 s t.2)
    (rest : UndisturbedRun self funcEa sp is steps (self.step i s funcEa)) :
    UndisturbedRun self funcEa sp (i :: is) (t :: steps) s := by
  intro before u after split
  rcases List.cons_eq_append_iff.mp split with ⟨rfl, same⟩ | ⟨more, rfl, same⟩
  · cases same
    exact here
  · exact rest more u after same

theorem deltasExact_nil : DeltasExact sp base ([] : List (Int × SpStep width)) m := by
  intro before t after split
  cases before <;> cases split

theorem DeltasExact.cons {t : Int × SpStep width}
    (here : m.regs sp = base + BitVec.ofInt _ t.1)
    (rest : DeltasExact sp base steps (t.2.access.exec sp m)) :
    DeltasExact sp base (t :: steps) m := by
  intro before u after split
  rcases List.cons_eq_append_iff.mp split with ⟨rfl, same⟩ | ⟨more, rfl, same⟩
  · cases same
    exact here
  · exact rest more u after same

/-- The state that `_simulate_block` leaves, at whatever address it stops, is right about every
register of a machine that made the same steps, if none of them disturbs what the state knows
elsewhere: a push or a store that overlaps another known cell, and a push or pop while the stack
pointer is known, are what the state does not follow. -/
theorem registers_hold_of_undisturbed (builtin : self.registry = defaultRegistry)
    (pointer : self.port.stackPointerReg = some sp) (positive : 0 < width) (narrow : width ≤ 8)
    {block : BasicBlockInfo} (tiles : Tiles block.startEa is block.endEa)
    (decoded : ∀ i ∈ is, self.port.decodeAt i.ea = some i)
    (row : SpRow self.port funcEa sp width is steps) (exact' : DeltasExact sp base steps m)
    (seeded : RegistersHold self.port ρ s m.regs) (untracked : ∀ k, ¬ s.Tracks (.cell k))
    (undisturbed : UndisturbedRun self funcEa sp is steps s)
    {bound used used' : Nat} {s' : AbstractState} {stopBefore : Option Nat}
    (simulated : self.simulateBlock bound funcEa block s used stopBefore =
      some (s', used', false)) :
    RegistersHold self.port ρ s'
      (runAccesses sp (steps.take (executed is stopBefore).length) m).regs := by
  have picture : Picture self.port ρ base s m := by
    refine ⟨seeded, ?_⟩
    intro k
    have unknown := AbstractState.read_of_not_tracks (untracked (.sp k))
    rw [AbstractState.read] at unknown
    rw [unknown]
    exact holds_unknown _ _
  let n := (executed is stopBefore).length
  have extends' := executed_extends tiles stopBefore
  have le : n ≤ steps.length := extends'.length_le.trans_eq row.length_eq
  have here := picture.run builtin pointer positive narrow row exact' undisturbed
    (List.take_append_drop n steps).symm
  rw [List.length_take_of_le le, ← List.prefix_iff_eq_take.mp extends'] at here
  rw [simulateBlock_executed tiles decoded simulated]
  exact here.registers

end Run

/-! ## A slot that is used again -/

namespace ReusedSlot

def fake : FakeIdaPort where
  pointerSize := 4
  instructions := [
    FakeIdaPort.insn 0x401000 "mov" 3 [FakeIdaPort.memDispl 0 4 0, FakeIdaPort.reg 1 0],
    FakeIdaPort.insn 0x401003 "add" 3 [FakeIdaPort.reg 0 4, FakeIdaPort.imm 1 4],
    FakeIdaPort.push 0x401006 1 (FakeIdaPort.reg 0 3),
    FakeIdaPort.insn 0x401007 "mov" 3 [FakeIdaPort.reg 0 1, FakeIdaPort.memDispl 1 4 0],
    FakeIdaPort.push 0x401010 1 (FakeIdaPort.reg 0 3),
    FakeIdaPort.insn 0x401011 "mov" 3 [FakeIdaPort.memDispl 0 4 0, FakeIdaPort.reg 1 0],
    FakeIdaPort.insn 0x401014 "mov" 3 [FakeIdaPort.reg 0 1, FakeIdaPort.memDispl 1 4 0]]
  funcBounds := [(0x401000, 0x40100a), (0x401010, 0x401017)]
  spDeltas := [((0x401000, 0x401000), -8), ((0x401000, 0x401003), -8),
    ((0x401000, 0x401006), -4), ((0x401000, 0x401007), -8), ((0x401010, 0x401010), -8),
    ((0x401010, 0x401011), -12), ((0x401010, 0x401014), -12)]

def engine : ForwardSymbolicEngine where
  port := fake.toPort
  registry := defaultRegistry

/-- `eax` and `ebx` hold the arguments. -/
def seeds : AbstractState :=
  (AbstractState.empty.setRegister (some 0) (.symbolic "arg0")).setRegister (some 3)
    (.symbolic "arg1")

def reading : Reading 32 := ⟨fun _ => 0, fun e => if e = "arg0" then 1 else 2⟩

def start : State Nat 4 := ⟨fun r => if r = 4 then 0xff8 else if r = 0 then 1 else 2, 0⟩

theorem seeds_hold : RegistersHold engine.port reading seeds start.regs := by
  have none' : RegistersHold engine.port reading .empty fun r => if r = 4 then 0xff8 else 2 := by
    intro r _
    exact ValueLattice.holds_of_unknown rfl
  have first := none'.set (r := 0) (v := .symbolic "arg0") (x := 1)
    (ValueLattice.holds_symbolic.mpr rfl)
  have second := first.set (r := 3) (v := .symbolic "arg1") (x := 2)
    (ValueLattice.holds_symbolic.mpr rfl)
  have same : Function.update (Function.update (fun r => if r = 4 then 0xff8 else 2) 0 1) 3 2 =
      start.regs := by
    funext r
    simp only [Function.update_apply, start]
    split_ifs <;> first | rfl | omega
  rw [← same]
  exact second

def reuse : List (Int × SpStep 4) :=
  [(-8, .store 0 0), (-8, .step (.add 4)), (-4, .step (.push (.reg 3))), (-8, .load 1 0)]

def spill : List (Int × SpStep 4) :=
  [(-8, .step (.push (.reg 3))), (-12, .store 0 0), (-12, .load 1 0)]

/-- `ecx` is taken to hold the stored argument, though the other one was pushed over it. -/
theorem pushed_argument_mistaken :
    RegistersHold engine.port reading seeds start.regs ∧ DeltasExact 4 0x1000 reuse start ∧
      ∃ s' used', engine.simulateBlock 4 0x401000 ⟨0x401000, 0x40100a, [], []⟩ seeds 0 =
          some (s', used', false) ∧
        ¬ RegistersHold engine.port reading s' (runAccesses 4 reuse start).regs := by
  have exact' : DeltasExact 4 0x1000 reuse start := by
    refine .cons (by decide) (.cons (by decide) (.cons (by decide) (.cons (by decide) ?_)))
    exact deltasExact_nil
  refine ⟨seeds_hold, exact', ?_⟩
  have result : (engine.simulateBlock 4 0x401000 ⟨0x401000, 0x40100a, [], []⟩ seeds 0).map
      (fun out => (out.1.getRegister (some 1), out.2.2)) = some (.symbolic "arg0", false) := by
    decide
  rcases Option.map_eq_some_iff.mp result with ⟨⟨s', used', exceeded⟩, simulated, same⟩
  rcases Prod.mk.inj same with ⟨value, rfl⟩
  refine ⟨s', used', simulated, ?_⟩
  intro holds
  have right := holds 1 (FakeIdaPort.wholeReg rfl (by decide))
  rw [value, ValueLattice.holds_symbolic] at right
  revert right
  decide

theorem spilled_argument_holds :
    ∃ s' used', engine.simulateBlock 3 0x401010 ⟨0x401010, 0x401017, [], []⟩ seeds 0 =
        some (s', used', false) ∧ s'.getRegister (some 1) = .symbolic "arg0" ∧
      RegistersHold engine.port reading s' (runAccesses 4 spill start).regs := by
  have whole (r : Nat) (general : r < 10) : WholeReg engine.port 32 r :=
    FakeIdaPort.wholeReg rfl general
  have result : (engine.simulateBlock 3 0x401010 ⟨0x401010, 0x401017, [], []⟩ seeds 0).map
      (fun out => (out.1.getRegister (some 1), out.2.2)) = some (.symbolic "arg0", false) := by
    decide
  rcases Option.map_eq_some_iff.mp result with ⟨⟨s', used', exceeded⟩, simulated, same⟩
  rcases Prod.mk.inj same with ⟨value, rfl⟩
  refine ⟨s', used', simulated, value, ?_⟩
  let is := (fake.instructions.drop 4)
  have register (number r : Nat) (general : r < 10) :
      RegOperand engine.port 32 (FakeIdaPort.reg number r) r := ⟨rfl, rfl, rfl, whole r general⟩
  have cell (number : Nat) : SpCell (FakeIdaPort.memDispl number 4 0) 4 4 0 :=
    ⟨Or.inl rfl, rfl, rfl, rfl, rfl, rfl⟩
  have row : SpRow engine.port 0x401010 4 4 is spill := by
    refine .cons ⟨rfl, ?_⟩ (.cons ⟨rfl, ?_⟩ (.cons ⟨rfl, ?_⟩ .nil))
    · exact .step (.pushReg rfl rfl rfl rfl (register 0 3 (by decide)))
    · exact .store rfl ⟨rfl, rfl, rfl, rfl, rfl⟩ (cell 0) (register 1 0 (by decide)) rfl
    · exact .load rfl ⟨rfl, rfl, rfl, rfl, rfl⟩ (register 0 1 (by decide)) (cell 1) rfl
  have exact' : DeltasExact 4 0x1000 spill start := by
    refine .cons (by decide) (.cons (by decide) (.cons (by decide) ?_))
    exact deltasExact_nil
  have untracked : ∀ k, ¬ seeds.Tracks (.cell k) := by
    intro k
    simp only [seeds, AbstractState.tracks_setRegister]
    simp [AbstractState.Tracks, AbstractState.empty]
  have unknown (k : Int) : (seeds.getStack (.sp k)).isKnown = false := by
    have absent := AbstractState.read_of_not_tracks (untracked (.sp k))
    rw [AbstractState.read] at absent
    rw [absent]
    rfl
  have pushed : engine.step (FakeIdaPort.push 0x401010 1 (FakeIdaPort.reg 0 3)) seeds 0x401010 =
      seeds := by decide
  have undisturbed : UndisturbedRun engine 0x401010 4 is spill seeds := by
    refine .cons ⟨?_, fun _ => by decide⟩ (.cons ⟨?_, False.elim⟩ (.cons ⟨?_, False.elim⟩
      undisturbedRun_nil))
    · intro x _ k _ known
      simp [unknown] at known
    · intro x _ k _ known
      rw [pushed] at known
      simp [unknown] at known
    · intro x target
      cases target
  have tiles : Tiles 0x401010 is 0x401017 := by decide
  have decoded : ∀ i ∈ is, engine.port.decodeAt i.ea = some i := by decide
  exact registers_hold_of_undisturbed rfl rfl (by decide) (by decide) tiles decoded row exact'
    seeds_hold untracked undisturbed simulated

end ReusedSlot

end IDAnalysister
