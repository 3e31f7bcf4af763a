import IDAnalysister.Adapters.OperandDecode
import IDAnalysister.Backward.Engine
import IDAnalysister.Forward.Engine

/-!
# Indexed operands

An operand with an index register names a family of addresses, and nobody who meets one
takes it for a single cell (`Operand.refused_of_hasIndex`). Which operands keep the index
that their encoding names (`keepsIndex_iff`).
-/

namespace IDAnalysister

open Effect Prog

/-! ## Operands that name no single address -/

/-- Nobody takes the operand for one fixed address: a load through it is unknown, the forward
engine has no cell for it, and a write through it never decides a query backward. -/
structure Operand.Refused (op : Operand) : Prop where
  load : ∀ (port : IdaPort) (beforeEa : Nat), ∃ v, loadMemoryOperand port op beforeEa = .pure v ∧
    v.isKnown = false
  forward : ∀ (engine : ForwardSymbolicEngine) (ea funcEa : Nat),
    engine.stackKey op ea funcEa = none
  backward : ∀ (port : IdaPort) (i : Instruction) (key : MemoryKey) (funcEa : Nat),
    memoryOperandFinding port i key funcEa [op] ≠ some (.interpret op.number)

theorem Operand.refused_of_hasIndex {op : Operand} (indexed : op.hasIndex = true) : op.Refused where
  load port beforeEa := by
    rcases Option.isSome_iff_exists.mp indexed with ⟨index, named⟩
    refine ⟨_, by rw [loadMemoryOperand, unsupportedAddressShape, named], rfl⟩
  forward engine ea funcEa := by
    unfold ForwardSymbolicEngine.stackKey
    split
    · split
      · rfl
      · exact if_pos (Or.inl indexed)
    · rfl
  backward port i key funcEa := by
    rw [memoryOperandFinding]
    split
    · split
      · simp [memoryOperandFinding]
      · split <;> simp [memoryOperandFinding]
    · simp [memoryOperandFinding]

/-- The operand that stands for an encoding keeps its index. -/
def KeepsIndex (insn : IdaInsn) (raw : IdaOp) (op : Operand) : Prop :=
  ∀ index, raw.encodedIndex insn = some index →
    op.hasIndex = true ∧ op.indexReg = some index ∧ op.scale = sibScale raw.specflag2 ∧ op.Refused

theorem keepsIndex_of_decoded {insn : IdaInsn} {raw : IdaOp} {op : Operand}
    (decoded : (op.indexReg, op.scale) =
      (memoryOperandAddressing raw.reg (raw.specflag1 ≠ 0) raw.specflag2
        (rexBits insn.insnpref)).2) :
    KeepsIndex insn raw op := by
  intro index encoded
  have present : raw.specflag1 ≠ 0 := by
    intro absent
    simp [IdaOp.encodedIndex, absent] at encoded
  rw [IdaOp.encodedIndex, if_neg present] at encoded
  rw [memoryOperandAddressing, if_pos (by simpa using present), decodeSib_eq, encoded] at decoded
  obtain ⟨named, scaled⟩ := Prod.mk.inj decoded
  have indexed : op.hasIndex = true := by
    rw [Operand.hasIndex, named]
    rfl
  exact ⟨indexed, named, scaled, Operand.refused_of_hasIndex indexed⟩

/-- The conversion keeps the index of an operand unless it is an absolute one with an index. -/
theorem keepsIndex_iff (regName : Nat → Option String) (insn : IdaInsn) (raw : IdaOp) (number : Nat)
    (memory : raw.type.IsMemory) :
    KeepsIndex insn raw (convertOperand regName insn raw number) ↔
      ¬ (raw.type = .mem ∧ (raw.encodedIndex insn).isSome) := by
  refine ⟨?_, fun kept => ?_⟩
  · rintro keeps ⟨direct, encoded⟩
    rcases Option.isSome_iff_exists.mp encoded with ⟨index, named⟩
    have lost : (convertOperand regName insn raw number).hasIndex = false := by
      simp [convertOperand, direct, Operand.hasIndex]
    rw [(keeps index named).1] at lost
    cases lost
  · rcases memory with direct | phrase | displ
    · intro index named
      exact (kept ⟨direct, by rw [named]; rfl⟩).elim
    · exact keepsIndex_of_decoded (by simp [convertOperand, phrase])
    · exact keepsIndex_of_decoded (by simp [convertOperand, displ])

namespace JumpTable

/-- `mov eax, [ecx*4+0x404000]`, as IDA gives it: an `o_mem` with a SIB byte. -/
def entry : IdaOp where
  type := .mem
  dtypeSize := 4
  addr := 0x404000
  specflag1 := 1
  specflag2 := 0x8d

/-- `[ebx+ecx*4+8]`. -/
def element : IdaOp where
  type := .displ
  dtypeSize := 4
  reg := 4
  addr := 8
  specflag1 := 1
  specflag2 := 0x8b

/-- The table is read at its first entry. -/
theorem entry_loses_index :
    entry.encodedIndex {} = some 1 ∧
      ¬ KeepsIndex {} entry (convertOperand (fun _ => none) {} entry 1) ∧
      ∀ (port : IdaPort) (beforeEa : Nat),
        loadMemoryOperand port (convertOperand (fun _ => none) {} entry 1) beforeEa =
          Extraction.resolveMemory none 0x404000 beforeEa 4 := by
  refine ⟨by decide, fun keeps => ?_, fun port beforeEa => rfl⟩
  have indexed := (keeps 1 (by decide)).1
  cases indexed

theorem element_keeps_index :
    KeepsIndex {} element (convertOperand (fun _ => none) {} element 1) :=
  (keepsIndex_iff (fun _ => none) {} element 1 (Or.inr (Or.inr rfl))).mpr (by decide)

end JumpTable

end IDAnalysister
