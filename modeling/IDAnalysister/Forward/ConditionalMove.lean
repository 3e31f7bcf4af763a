import IDAnalysister.Forward.Clobbers
import IDAnalysister.Reading

/-!
# Conditional moves

`cmovCC dst, src` leaves `dst` as it is or gives it the content of `src`. The locator joins the
destination with the operand's register: for a register source that is its content, for a
memory source it is the base of the address. `cmov_agrees_iff` says where the joined value is
right in both outcomes.
-/

namespace IDAnalysister

/-! ## Machine states -/

/-- The words in the registers, in the stack cells, and where an operand that names no cell
points to. -/
structure MachineState (W : Nat) where
  registers : Nat → BitVec W
  cells : StackKey → BitVec W
  elsewhere : Operand → BitVec W

namespace ForwardSymbolicEngine

open AbstractState ValueLattice

variable {W : Nat} {self : ForwardSymbolicEngine} {funcEa : Nat} {i : Instruction}
variable {s : AbstractState} {dst src : Operand}

/-- The state is right about every register and every stack cell. -/
structure Describes (ρ : Reading W) (s : AbstractState) (m : MachineState W) : Prop where
  registers : ∀ r, (s.getRegister (some r)).Holds ρ (m.registers r)
  cells : ∀ k, (s.getStack k).Holds ρ (m.cells k)

/-- The content of an operand: of its register, or of the memory that it refers to. -/
def content (self : ForwardSymbolicEngine) (funcEa : Nat) (i : Instruction) (m : MachineState W)
    (op : Operand) : BitVec W :=
  match op.kind, op.reg with
  | .reg, some r => m.registers r
  | _, _ =>
      match self.stackKey op i.ea funcEa with
      | some k => m.cells k
      | none => m.elsewhere op

/-- Whatever machine state is described, the value left in the destination is right about the
destination's content where nothing moves, and about the source's content where it moves. -/
def AgreesOnMove (W : Nat) (self : ForwardSymbolicEngine) (funcEa : Nat) (i : Instruction)
    (dst src : Operand) (s : AbstractState) : Prop :=
  ∀ (ρ : Reading W) (m : MachineState W), Describes ρ s m →
    ((self.step i s funcEa).getRegister dst.reg).Holds ρ (self.content funcEa i m dst) ∧
      ((self.step i s funcEa).getRegister dst.reg).Holds ρ (self.content funcEa i m src)

theorem content_register (m : MachineState W) {r : Nat} (kind : src.kind = .reg)
    (named : src.reg = some r) : self.content funcEa i m src = m.registers r := by
  rw [content, kind, named]

theorem content_memory (m : MachineState W) (memory : src.isMemory) :
    self.content funcEa i m src = match self.stackKey src i.ea funcEa with
      | some k => m.cells k
      | none => m.elsewhere src := by
  have notReg := Operand.kind_ne_reg_of_isMemory memory
  unfold content
  split
  · rename_i kind _
    exact (notReg kind).elim
  · rfl

/-- Every state describes some machine. -/
theorem exists_describes (ρ : Reading W) (s : AbstractState) (elsewhere : Operand → BitVec W) :
    Describes ρ s ⟨fun r => (s.getRegister (some r)).someWord ρ, fun k => (s.getStack k).someWord ρ,
      elsewhere⟩ :=
  ⟨fun _ => holds_someWord ρ _, fun _ => holds_someWord ρ _⟩

/-- A cell may hold any word that its value is right about. -/
theorem Describes.update {ρ : Reading W} {m : MachineState W} (describes : Describes ρ s m)
    {k : StackKey} {x : BitVec W} (right : (s.getStack k).Holds ρ x) :
    Describes ρ s { m with cells := Function.update m.cells k x } := by
  refine ⟨describes.registers, ?_⟩
  intro k'
  by_cases same : k' = k
  · subst same
    simpa using right
  · simpa [same] using describes.cells k'

/-- A memory operand that holds the word in every machine that is described names a cell that is
known to hold it. -/
theorem cell_of_content (positive : 0 < W) (memory : src.isMemory) {p : Payload W}
    (moved : ∀ (ρ : Reading W) (m : MachineState W), Describes ρ s m →
      self.content funcEa i m src = ρ.word p) :
    ∃ k, self.stackKey src i.ea funcEa = some k ∧ (s.getStack k).payload W = some p := by
  simp only [content_memory _ memory] at moved
  let ρ : Reading W := ⟨fun _ => 0, fun _ => 0⟩
  rcases exists_word_ne positive (ρ.word p) with ⟨y, other⟩
  cases key : self.stackKey src i.ea funcEa with
  | none =>
      simp only [key] at moved
      exact (other (moved ρ _ (exists_describes ρ s fun _ => y))).elim
  | some k =>
      simp only [key] at moved
      refine ⟨k, rfl, ?_⟩
      cases cell : (s.getStack k).payload W with
      | none =>
          -- the cell may hold any word
          have free : (s.getStack k).Holds ρ y := by
            intro q stands
            rw [cell] at stands
            cases stands
          have equal := moved ρ _ ((exists_describes ρ s fun _ => 0).update free)
          exact (other (by simpa using equal)).elim
      | some q =>
          by_contra differ
          have apart : q ≠ p := fun same => differ (by rw [same])
          rcases exists_reading_ne positive apart with ⟨ρ, apart⟩
          have describes := exists_describes ρ s fun _ => 0
          have word := describes.cells k q cell
          exact apart (word.symm.trans (moved ρ _ describes))

/-! ## The joined value -/

section Cmov

variable (builtin : self.registry = defaultRegistry) (cmov : startsWith i.mnem "cmov")
variable {wa wb : Bool} (pair : Pair i dst src wa wb) (reg : dst.kind = .reg)

include builtin cmov pair reg

theorem stepTransfer_cmov : self.stepTransfer i s funcEa =
    s.setRegister dst.reg ((s.getRegister dst.reg).join (s.getRegister src.reg)) := by
  have matched := findMatch_cmov cmov pair reg
  rw [← builtin] at matched
  rw [stepTransfer, if_neg (by simp [not_isCall_of_cmov cmov]), matched]
  exact congrFun (applyLocator_cmovRegReg pair.operand_zero pair.operand_one) s

theorem getRegister_step_cmov (whole : ¬ self.WritesPart i dst.reg) :
    (self.step i s funcEa).getRegister dst.reg =
      (s.getRegister dst.reg).join (s.getRegister src.reg) := by
  rw [step, stepTransfer_cmov builtin cmov pair reg, getRegister_invalidatePartial whole]
  have set := read_setRegister s dst.reg ((s.getRegister dst.reg).join (s.getRegister src.reg))
    (.reg dst.reg)
  rwa [if_pos rfl] at set

/-- The value is right in both outcomes if and only if the destination is written in part, the
source is a register, or the source names a stack cell that holds whatever the destination and
the operand's register agree on. -/
theorem cmov_agrees_iff (source : src.kind = .reg ∨ src.isMemory) (positive : 0 < W) :
    AgreesOnMove W self funcEa i dst src s ↔
      self.WritesPart i dst.reg ∨ src.kind = .reg ∨
        ∀ v p, v ≤ s.getRegister dst.reg → v ≤ s.getRegister src.reg → v.payload W = some p →
          ∃ key, self.stackKey src i.ea funcEa = some key ∧
            (s.getStack key).payload W = some p := by
  by_cases whole : self.WritesPart i dst.reg
  · simp only [whole, true_or, iff_true]
    intro ρ m _
    have unknown : ((self.step i s funcEa).getRegister dst.reg).isKnown = false := by
      apply Bool.eq_false_iff.mpr
      intro known
      exact (known_step.mp known).2 whole
    exact ⟨holds_of_unknown unknown, holds_of_unknown unknown⟩
  · have joined : (self.step i s funcEa).getRegister dst.reg =
        (s.getRegister dst.reg).join (s.getRegister src.reg) :=
      getRegister_step_cmov builtin cmov pair reg whole
    rcases Operand.exists_reg reg with ⟨d, named⟩
    have stays (m : MachineState W) : self.content funcEa i m dst = m.registers d :=
      content_register m reg named
    unfold AgreesOnMove
    rw [joined]
    simp only [whole, false_or]
    constructor
    · intro agrees
      apply or_iff_not_imp_left.mpr
      intro notReg v p left right stated
      have memory := source.resolve_left notReg
      have result := payload_of_le (le_join left right) stated
      exact cell_of_content positive memory fun ρ m describes =>
        (agrees ρ m describes).2 p result
    · intro right ρ m describes
      have before : (s.getRegister dst.reg).Holds ρ (self.content funcEa i m dst) := by
        rw [stays, named]
        exact describes.registers d
      refine ⟨before.of_le (join_le_left _ _), ?_⟩
      rcases right with kind | cell
      · rcases Operand.exists_reg kind with ⟨r, named'⟩
        have content : self.content funcEa i m src = m.registers r :=
          content_register m kind named'
        rw [content, named']
        exact (describes.registers r).of_le (join_le_right _ _)
      · intro p stated
        rcases cell _ p (join_le_left _ _) (join_le_right _ _) stated with ⟨k, key, same⟩
        by_cases kind : src.kind = .reg
        · simp [stackKey, kind] at key
        · rw [content_memory m (source.resolve_left kind), key]
          exact describes.cells k p same

end Cmov

end ForwardSymbolicEngine

/-! ## A pointer that is dereferenced -/

namespace CmovThroughPointer

open ForwardSymbolicEngine

def engine : ForwardSymbolicEngine where
  port := FakeIdaPort.toPort { pointerSize := 4, instructions := [], funcBounds := [] }
  registry := defaultRegistry

def eax : Operand := FakeIdaPort.reg 0 0

/-- `[ecx]`. -/
def atEcx : Operand := FakeIdaPort.memDispl 1 1 0

/-- `cmovz eax, [ecx]`. -/
def cmovz : Instruction := FakeIdaPort.insn 0x401000 "cmovz" 3 [eax, atEcx]

/-- Both registers hold the argument. -/
def state : AbstractState := (seed 0 0).setRegister (some 1) (.symbolic "arg0")

/-- Zero stands at the address, and the argument is another word. -/
theorem pointee_taken_for_pointer :
    (engine.step cmovz state 0x401000).getRegister eax.reg = .symbolic "arg0" ∧
      ¬ AgreesOnMove 32 engine 0x401000 cmovz eax atEcx state := by
  have left : (engine.step cmovz state 0x401000).getRegister eax.reg = .symbolic "arg0" := by decide
  refine ⟨left, ?_⟩
  intro agrees
  let ρ : Reading 32 := ⟨fun _ => 0, fun _ => 1⟩
  have moved := (agrees ρ _ (exists_describes ρ state fun _ => 0)).2
  rw [left, ValueLattice.holds_symbolic] at moved
  revert moved
  decide

/-- When nothing is known of the pointer, the destination loses its value and nothing is wrong. -/
theorem unknown_pointer_agrees :
    AgreesOnMove 32 engine 0x401000 cmovz eax atEcx (seed 0 0) := by
  refine (cmov_agrees_iff rfl (by decide) ⟨rfl, rfl, rfl, rfl, rfl⟩ rfl (Or.inr (by decide))
    (by decide)).mpr (Or.inr (Or.inr ?_))
  intro v p _ right stated
  have pointer : (seed 0 0).getRegister atEcx.reg = .unknown' .noDefinitionFound := by decide
  rw [pointer] at right
  cases ValueLattice.payload_of_le right stated

end CmovThroughPointer

end IDAnalysister
