import Mathlib.Tactic.Positivity
import IDAnalysister.Machine

/-!
# The resolver on the modelled forms

For each form of `Machine.lean`: which locator the built-in registry dispatches to,
which place the instruction is a definition of, and what the interpretation of that
definition asks for. `form_frame` and `form_computes` sum it up in terms of the word
transfer the form stands for.
-/

namespace IDAnalysister

open Effect Prog Transfer

/-! ## Dispatch -/

section Dispatch

variable {i : Instruction} {a b : Operand} {wa wb : Bool}

/-- `startswith` is the prefix relation of the characters. -/
theorem startsWith_iff {s t : String} : startsWith s t = true ↔ t.toList <+: s.toList :=
  List.isPrefixOf_iff_prefix

/-- No mnemonic starts in two ways. -/
theorem not_isCall_of_start {start : String} (starts : startsWith i.mnem start)
    (apart : ¬ start.toList <+: "call".toList ∧ ¬ "call".toList <+: start.toList) :
    i.isCall = false := by
  cases call : i.isCall with
  | false => rfl
  | true =>
      rcases List.prefix_or_prefix_of_prefix (startsWith_iff.mp starts) (startsWith_iff.mp
        call) with
        inner | outer
      · exact (apart.1 inner).elim
      · exact (apart.2 outer).elim

/-- A conditional move is no call. -/
theorem not_isCall_of_cmov (cmov : startsWith i.mnem "cmov") : i.isCall = false :=
  not_isCall_of_start cmov (by decide)

/-- A mnemonic with a given start is none of those without it. -/
theorem mnem_ne {start m : String} (starts : startsWith i.mnem start)
    (short : startsWith m start = false) : i.mnem ≠ m := by
  intro same
  rw [same, short] at starts
  cases starts

/-- A mnemonic with a start that no move has is no move. -/
theorem not_mem_moveMnemonics {start : String} (starts : startsWith i.mnem start)
    (short : ∀ m ∈ moveMnemonics, startsWith m start = false) : i.mnem ∉ moveMnemonics :=
  fun member => mnem_ne starts (short _ member) rfl

/-- Only mnemonics that start like `call` are calls. -/
theorem not_isCall_of_mnem {m : String} (mnem : i.mnem = m) (other : startsWith m "call" = false) :
    i.isCall = false := by
  rw [Instruction.isCall, mnem, other]

theorem not_isCall_of_move (move : i.mnem ∈ moveMnemonics) : i.isCall = false := by
  have other : ∀ m ∈ moveMnemonics, startsWith m "call" = false := by decide
  exact not_isCall_of_mnem rfl (other i.mnem move)

/-- A move between two registers goes to `MovRegRegLocator`, whichever of the moves it is. -/
theorem findMatch_moveReg (move : i.mnem ∈ moveMnemonics) (pair : Pair i a b wa wb)
    (ha : a.kind = .reg) (hb : b.kind = .reg) : defaultRegistry.findMatch i = some movRegReg := by
  have notZero : i.mnem ≠ "xor" ∧ i.mnem ≠ "sub" := by
    constructor <;> exact ne_of_mem_of_not_mem move (by decide)
  simp [LocatorRegistry.findMatch, defaultRegistry_all, builtins, List.find?, zeroIdiom, movRegReg,
    acceptsPair, move, notZero, pair.operand_zero, pair.operand_one, ha, hb]

theorem findMatch_movReg (mnem : i.mnem = "mov") (pair : Pair i a b wa wb) (ha : a.kind = .reg)
    (hb : b.kind = .reg) : defaultRegistry.findMatch i = some movRegReg :=
  findMatch_moveReg (by simp [mnem, moveMnemonics]) pair ha hb

/-- A `mov` of an immediate into a register goes to `MovRegImmLocator`. -/
theorem findMatch_movImm (mnem : i.mnem = "mov") (pair : Pair i a b wa wb) (ha : a.kind = .reg)
    (hb : b.kind = .immediate) : defaultRegistry.findMatch i = some movRegImm := by
  simp [LocatorRegistry.findMatch, defaultRegistry_all, builtins, List.find?, zeroIdiom, movRegReg,
    movRegImm, acceptsPair, mnem, pair.operand_zero, pair.operand_one, ha, hb, moveMnemonics]

/-- A `lea` of a fixed address goes to `LeaRegAddrLocator`. -/
theorem findMatch_leaAddr (mnem : i.mnem = "lea") (pair : Pair i a b wa wb) (ha : a.kind = .reg)
    (hb : b.kind = .memDirect) : defaultRegistry.findMatch i = some leaRegAddr := by
  simp [LocatorRegistry.findMatch, defaultRegistry_all, builtins, List.find?, zeroIdiom, movRegReg,
    movRegImm, leaRegAddr, acceptsPair, mnem, pair.operand_zero, pair.operand_one, ha, hb,
    moveMnemonics]

/-- An exchange of two registers goes to `XchgRegRegLocator`. -/
theorem findMatch_xchg (mnem : i.mnem = "xchg") (pair : Pair i a b wa wb) (ha : a.kind = .reg)
    (hb : b.kind = .reg) : defaultRegistry.findMatch i = some xchgRegReg := by
  simp [LocatorRegistry.findMatch, defaultRegistry_all, builtins, List.find?, zeroIdiom, movRegReg,
    movRegImm, leaRegAddr, xchgRegReg, acceptsPair, mnem, pair.operand_zero, pair.operand_one, ha,
    hb, moveMnemonics]

/-- A register combined with itself goes to `ZeroIdiomLocator`, before any other `sub`. -/
theorem findMatch_zero (mnem : i.mnem = "xor" ∨ i.mnem = "sub") (pair : Pair i a b wa wb)
    (ha : a.kind = .reg) (hb : b.kind = .reg) (same : a.reg = b.reg) :
    defaultRegistry.findMatch i = some zeroIdiom := by
  simp [LocatorRegistry.findMatch, defaultRegistry_all, builtins, zeroIdiom, acceptsPair, mnem,
    pair.operand_zero, pair.operand_one, ha, hb, same]

/-- A conditional move into a register goes to `CmovRegRegLocator`, whatever its source. -/
theorem findMatch_cmov (cmov : startsWith i.mnem "cmov") (pair : Pair i a b wa wb)
    (ha : a.kind = .reg) : defaultRegistry.findMatch i = some cmovRegReg := by
  -- the locators tried before it ask for other mnemonics
  have notMove := not_mem_moveMnemonics cmov (by decide)
  have notMov := mnem_ne cmov (show startsWith "mov" "cmov" = false by decide)
  have notLea := mnem_ne cmov (show startsWith "lea" "cmov" = false by decide)
  have notXchg := mnem_ne cmov (show startsWith "xchg" "cmov" = false by decide)
  have notXor := mnem_ne cmov (show startsWith "xor" "cmov" = false by decide)
  have notSub := mnem_ne cmov (show startsWith "sub" "cmov" = false by decide)
  simp [LocatorRegistry.findMatch, defaultRegistry_all, builtins, List.find?, zeroIdiom, movRegReg,
    movRegImm, leaRegAddr, xchgRegReg, cmovRegReg, acceptsPair, cmov, pair.operand_zero,
    pair.operand_one, ha, notMove, notMov, notLea, notXchg, notXor, notSub]

/-- A `mov` of an immediate to memory goes to `MovMemImmLocator`. -/
theorem findMatch_movMemImm (mnem : i.mnem = "mov") (pair : Pair i a b wa wb)
    (ha : a.isMemory = true) (hb : b.kind = .immediate) :
    defaultRegistry.findMatch i = some movMemImm := by
  have notReg : a.kind ≠ .reg := Operand.kind_ne_reg_of_isMemory ha
  have notCmov : startsWith "mov" "cmov" = false := by decide
  simp [LocatorRegistry.findMatch, defaultRegistry_all, builtins, List.find?, zeroIdiom, movRegReg,
    movRegImm, leaRegAddr, xchgRegReg, cmovRegReg, movMemImm, acceptsPair, mnem,
    pair.operand_zero, pair.operand_one, ha, notReg, hb, moveMnemonics, notCmov]

/-- A load goes to `MovRegMemLocator`, whichever of the moves it is. -/
theorem findMatch_moveRegMem (move : i.mnem ∈ moveMnemonics) (pair : Pair i a b wa wb)
    (ha : a.kind = .reg) (hb : b.isMemory = true) :
    defaultRegistry.findMatch i = some movRegMem := by
  have notReg : b.kind ≠ .reg := Operand.kind_ne_reg_of_isMemory hb
  have notImm : b.kind ≠ .immediate := by
    intro same
    simp [Operand.isMemory, same] at hb
  have notMem : a.isMemory = false := Operand.isMemory_of_reg ha
  have other (m : String) (apart : m ∉ moveMnemonics) : i.mnem ≠ m :=
    ne_of_mem_of_not_mem move apart
  have notCmov : startsWith i.mnem "cmov" = false := by
    have short : ∀ m ∈ moveMnemonics, startsWith m "cmov" = false := by decide
    exact short i.mnem move
  simp [LocatorRegistry.findMatch, defaultRegistry_all, builtins, List.find?, zeroIdiom, movRegReg,
    movRegImm, leaRegAddr, xchgRegReg, cmovRegReg, movMemImm, movRegMem, acceptsPair, move,
    pair.operand_zero, pair.operand_one, ha, hb, notReg, notImm, notMem, notCmov,
    other "xor" (by decide), other "sub" (by decide),
    other "lea" (by decide), other "xchg" (by decide)]

theorem findMatch_movRegMem (mnem : i.mnem = "mov") (pair : Pair i a b wa wb) (ha : a.kind = .reg)
    (hb : b.isMemory = true) : defaultRegistry.findMatch i = some movRegMem :=
  findMatch_moveRegMem (by simp [mnem, moveMnemonics]) pair ha hb

/-- A `mov` of a register to memory goes to `MovMemRegLocator`. -/
theorem findMatch_movMemReg (mnem : i.mnem = "mov") (pair : Pair i a b wa wb)
    (ha : a.isMemory = true) (hb : b.kind = .reg) :
    defaultRegistry.findMatch i = some movMemReg := by
  have notReg : a.kind ≠ .reg := Operand.kind_ne_reg_of_isMemory ha
  have notCmov : startsWith "mov" "cmov" = false := by decide
  simp [LocatorRegistry.findMatch, defaultRegistry_all, builtins, List.find?, zeroIdiom, movRegReg,
    movRegImm, leaRegAddr, xchgRegReg, cmovRegReg, movMemImm, movRegMem, pushLocator, movMemReg,
    acceptsPair, mnem, pair.operand_zero, pair.operand_one, ha, notReg, hb, moveMnemonics, notCmov]

/-- A `lea` of a base plus a displacement, without an index, goes to `LeaRegDisplLocator`. -/
theorem findMatch_leaDispl (mnem : i.mnem = "lea") (pair : Pair i a b wa wb) (ha : a.kind = .reg)
    (hb : b.kind = .memDispl ∨ b.kind = .memPhrase) (base : b.reg.isSome)
    (plain : b.hasIndex = false) : defaultRegistry.findMatch i = some leaRegDispl := by
  have notDirect : b.kind ≠ .memDirect := by rcases hb with h | h <;> simp [h]
  have notCmov : startsWith "lea" "cmov" = false := by decide
  have notCall : startsWith "lea" "call" = false := by decide
  simp [LocatorRegistry.findMatch, defaultRegistry_all, builtins, List.find?, zeroIdiom, movRegReg,
    movRegImm, leaRegAddr, xchgRegReg, cmovRegReg, movMemImm, movRegMem, pushLocator, movMemReg,
    callReturn, leaRegDispl, Instruction.isCall, acceptsPair, mnem, pair.operand_zero,
    pair.operand_one, ha, notDirect, hb, base, plain, moveMnemonics, notCmov, notCall]

/-- A push that has an operand goes to `PushLocator`. -/
theorem findMatch_push (mnem : i.mnem = "push") (first : (i.operand 0).isSome) :
    defaultRegistry.findMatch i = some pushLocator := by
  have notCmov : startsWith "push" "cmov" = false := by decide
  simp [LocatorRegistry.findMatch, defaultRegistry_all, builtins, List.find?, zeroIdiom, movRegReg,
    movRegImm, leaRegAddr, xchgRegReg, cmovRegReg, movMemImm, movRegMem, pushLocator, acceptsPair,
    mnem, first, moveMnemonics, notCmov]

/-- No locator knows a pop. -/
theorem findMatch_pop (mnem : i.mnem = "pop") : defaultRegistry.findMatch i = none := by
  have notCmov : startsWith "pop" "cmov" = false := by decide
  have notCall : startsWith "pop" "call" = false := by decide
  simp [LocatorRegistry.findMatch, defaultRegistry_all, builtins, List.find?, zeroIdiom, movRegReg,
    movRegImm, leaRegAddr, xchgRegReg, cmovRegReg, movMemImm, movRegMem, pushLocator, movMemReg,
    callReturn, leaRegDispl, addSubRegImm, Instruction.isCall, acceptsPair, mnem, moveMnemonics,
    notCmov, notCall]

/-- An `add` or `sub` of an immediate goes to `AddSubRegImmLocator`. -/
theorem findMatch_addSub (mnem : i.mnem = "add" ∨ i.mnem = "sub") (pair : Pair i a b wa wb)
    (ha : a.kind = .reg) (hb : b.kind = .immediate) :
    defaultRegistry.findMatch i = some addSubRegImm := by
  have notCmov : startsWith "add" "cmov" = false ∧ startsWith "sub" "cmov" = false := by decide
  have notCall : startsWith "add" "call" = false ∧ startsWith "sub" "call" = false := by decide
  rcases mnem with mnem | mnem <;>
  simp [LocatorRegistry.findMatch, defaultRegistry_all, builtins, List.find?, zeroIdiom, movRegReg,
    movRegImm, leaRegAddr, xchgRegReg, cmovRegReg, movMemImm, movRegMem, pushLocator, movMemReg,
    callReturn, leaRegDispl, addSubRegImm, Instruction.isCall, acceptsPair, mnem,
    pair.operand_zero, pair.operand_one, ha, hb, moveMnemonics, notCmov, notCall]

/-- A call goes to `CallReturnLocator`. -/
theorem findMatch_call (call : i.isCall) : defaultRegistry.findMatch i = some callReturn := by
  -- every other locator asks for a mnemonic that no call has
  have notCmov : startsWith i.mnem "cmov" = false := by
    cases cmov : startsWith i.mnem "cmov" with
    | false => rfl
    | true =>
        rw [not_isCall_of_cmov cmov] at call
        cases call
  have notMove := not_mem_moveMnemonics call (by decide)
  have notMov := mnem_ne call (show startsWith "mov" "call" = false by decide)
  have notLea := mnem_ne call (show startsWith "lea" "call" = false by decide)
  have notXchg := mnem_ne call (show startsWith "xchg" "call" = false by decide)
  have notXor := mnem_ne call (show startsWith "xor" "call" = false by decide)
  have notSub := mnem_ne call (show startsWith "sub" "call" = false by decide)
  have notPush := mnem_ne call (show startsWith "push" "call" = false by decide)
  simp [LocatorRegistry.findMatch, defaultRegistry_all, builtins, List.find?, zeroIdiom, movRegReg,
    movRegImm, leaRegAddr, xchgRegReg, cmovRegReg, movMemImm, movRegMem, pushLocator, movMemReg,
    callReturn, acceptsPair, call, notCmov, notMove, notMov, notLea, notXchg, notXor, notSub,
    notPush]

end Dispatch

/-! ## Which place an instruction defines -/

section Findings

variable {port : IdaPort} {funcEa W : Nat} {i : Instruction} {a b : Operand}

/-- Among whole registers, the operand loop looks for the register by its number. -/
theorem registerOperandFinding_whole {q : Nat} (whole : WholeReg port W q) {ops : List Operand}
    (operands : ∀ op ∈ ops, op.kind = .reg → i.isWritten op.number →
      ∃ r, RegOperand port W op r) :
    registerOperandFinding port i q ops =
      (ops.find? fun op => op.kind = .reg ∧ i.isWritten op.number ∧ op.reg = some q).map
        fun op => .interpret op.number := by
  induction ops with
  | nil => rfl
  | cons op ops ih =>
      have rest := ih fun op' member => operands op' (by simp [member])
      rw [registerOperandFinding]
      by_cases candidate : op.kind = .reg ∧ i.isWritten op.number
      · obtain ⟨r, operand⟩ := operands op (by simp) candidate.1 candidate.2
        rw [if_pos candidate, operand.reg, Option.bind_some]
        cases hq : port.registerView q 0 with
        | none =>
            by_cases same : r = q
            · simp [List.find?, candidate, operand.reg, same]
            · simp [List.find?, operand.reg, same, rest]
        | some query =>
            obtain ⟨parentQ, offsetQ, sizeQ⟩ := whole 0 query (Or.inl rfl) hq
            cases hr : port.registerView r op.dtypeSize with
            | none =>
                by_cases same : r = q
                · simp [List.find?, candidate, operand.reg, same]
                · simp [List.find?, operand.reg, same, rest]
            | some write =>
                obtain ⟨parentR, offsetR, sizeR⟩ :=
                  operand.whole _ write (Or.inr operand.width) hr
                dsimp only
                by_cases same : r = q
                · simp [List.find?, candidate, operand.reg, same, parentQ, parentR, offsetR, sizeQ,
                    sizeR]
                · simp [List.find?, operand.reg, same, parentQ, parentR, rest]
      · have skipped : ¬ (op.kind = .reg ∧ i.isWritten op.number ∧ op.reg = some q) :=
          fun h => candidate ⟨h.1, h.2.1⟩
        simp [candidate, List.find?, skipped, rest]

/-- An instruction that is no call defines a register by its operands only. -/
theorem registerFinding_of_notCall (notCall : i.isCall = false) (q : Nat) :
    registerFinding port i q = registerOperandFinding port i q i.operands := by
  simp [registerFinding, notCall]

/-- What is no definition of a register writes none of its operands to it. -/
theorem registerOperandFinding_of_missed {q : Nat} (missed : registerFinding port i q = none) :
    registerOperandFinding port i q i.operands = none := by
  unfold registerFinding at missed
  split at missed
  · cases missed
  · split at missed
    · cases missed
    · exact missed

/-- A register destination is a definition of that register only. -/
theorem registerFinding_dest {d q : Nat} (notCall : i.isCall = false) (pair : Pair i a b true false)
    (dest : RegOperand port W a d) (whole : WholeReg port W q) :
    registerFinding port i q = if d = q then some (.interpret 0) else none := by
  have operands : ∀ op ∈ i.operands, op.kind = .reg → i.isWritten op.number →
      ∃ r, RegOperand port W op r := by
    intro op member _ written
    rw [pair.operands] at member
    rcases List.mem_pair.mp member with rfl | rfl
    · exact ⟨d, dest⟩
    · rw [pair.second, pair.flagB] at written
      cases written
  rw [registerFinding_of_notCall notCall, registerOperandFinding_whole whole operands,
    pair.operands]
  by_cases same : d = q
  · simp [List.find?, pair.first, pair.flagA, dest.kind, dest.reg, same]
  · simp [List.find?, pair.first, pair.second, pair.flagB, dest.kind, dest.reg, same]

/-- An exchange defines its two registers and nothing else. -/
theorem registerFinding_xchg {d r q : Nat} (notCall : i.isCall = false)
    (pair : Pair i a b true true)
    (left : RegOperand port W a d) (right : RegOperand port W b r) (whole : WholeReg port W q) :
    registerFinding port i q =
      if d = q then some (.interpret 0) else if r = q then some (.interpret 1) else none := by
  have operands : ∀ op ∈ i.operands, op.kind = .reg → i.isWritten op.number →
      ∃ r, RegOperand port W op r := by
    intro op member _ _
    rw [pair.operands] at member
    rcases List.mem_pair.mp member with rfl | rfl
    · exact ⟨d, left⟩
    · exact ⟨r, right⟩
  rw [registerFinding_of_notCall notCall, registerOperandFinding_whole whole operands,
    pair.operands]
  by_cases first : d = q
  · simp [List.find?, pair.first, pair.flagA, left.kind, left.reg, first]
  · by_cases second : r = q
    · simp [List.find?, pair.second, pair.flagB, left.reg, right.kind, right.reg, first, second]
    · simp [List.find?, left.reg, right.reg, first, second]

/-- Operands of which no register is written define no register. -/
theorem registerOperandFinding_quiet {ops : List Operand}
    (quiet : ∀ op ∈ ops, op.kind = .reg → i.isWritten op.number = false) (q : Nat) :
    registerOperandFinding port i q ops = none := by
  induction ops with
  | nil => rfl
  | cons op ops ih =>
      have skipped : ¬ (op.kind = .reg ∧ i.isWritten op.number) := by
        intro both
        rw [quiet op List.mem_cons_self both.1] at both
        cases both.2
      rw [registerOperandFinding, if_neg skipped]
      exact ih fun other member => quiet other (List.mem_cons_of_mem _ member)

/-- An instruction without a written register operand defines no register. -/
theorem registerFinding_quiet (notCall : i.isCall = false)
    (quiet : ∀ op ∈ i.operands, op.kind = .reg → i.isWritten op.number = false) (q : Nat) :
    registerFinding port i q = none := by
  rw [registerFinding_of_notCall notCall]
  exact registerOperandFinding_quiet quiet q

/-- A store is a definition of no register. -/
theorem registerFinding_store {q : Nat} (notCall : i.isCall = false) (pair : Pair i a b true false)
    (dest : a.isMemory = true) : registerFinding port i q = none := by
  have notReg : a.kind ≠ .reg := Operand.kind_ne_reg_of_isMemory dest
  rw [registerFinding_of_notCall notCall, pair.operands]
  simp [registerOperandFinding, notReg, pair.second, pair.flagB]

/-- An instruction that writes a register defines no cell. -/
theorem memoryFinding_dest {key : MemoryKey} (pair : Pair i a b true false)
    (dest : a.kind = .reg) : memoryFinding port i key funcEa = none := by
  have notMem : a.isMemory = false := Operand.isMemory_of_reg dest
  simp [memoryFinding, pair.operands, memoryOperandFinding, notMem, pair.second, pair.flagB]

/-- An exchange of registers defines no cell. -/
theorem memoryFinding_xchg {key : MemoryKey} (pair : Pair i a b true true) (left : a.kind = .reg)
    (right : b.kind = .reg) : memoryFinding port i key funcEa = none := by
  have notMemA : a.isMemory = false := Operand.isMemory_of_reg left
  have notMemB : b.isMemory = false := Operand.isMemory_of_reg right
  simp [memoryFinding, pair.operands, memoryOperandFinding, notMemA, notMemB]

/-- An instruction without a written memory operand defines no cell. -/
theorem memoryFinding_quiet (quiet : ∀ op ∈ i.operands, op.isMemory → i.isWritten op.number = false)
    (key : MemoryKey) : memoryFinding port i key funcEa = none := by
  have each : ∀ ops : List Operand, (∀ op ∈ ops, op.isMemory → i.isWritten op.number = false) →
      memoryOperandFinding port i key funcEa ops = none := by
    intro ops quiet
    induction ops with
    | nil => rfl
    | cons op ops ih =>
        have skipped : ¬ (op.isMemory ∧ i.isWritten op.number) := by
          intro both
          rw [quiet op List.mem_cons_self both.1] at both
          cases both.2
        rw [memoryOperandFinding, if_neg skipped]
        exact ih fun other member => quiet other (List.mem_cons_of_mem _ member)
  exact each i.operands quiet

/-- A store to a known place counts as a definition of that place only. -/
theorem memoryFinding_located {place key : MemoryKey} (pair : Pair i a b true false)
    (memory : a.isMemory) (noIndex : a.hasIndex = false)
    (located : operandLocation port a i.ea funcEa = some place) :
    memoryFinding port i key funcEa = if place = key then some (.interpret 0) else none := by
  simp only [memoryFinding, pair.operands, memoryOperandFinding, memory, pair.first, pair.flagA,
    located, noIndex, pair.second, pair.flagB]
  by_cases same : place = key
  · simp [same]
  · simp [same]

/-- A store to a cell is a definition of that cell only. -/
theorem memoryFinding_store {k key : MemoryKey} (pair : Pair i a b true false)
    (dest : CellOperand port funcEa i.ea a k) :
    memoryFinding port i key funcEa = if k = key then some (.interpret 0) else none :=
  memoryFinding_located pair dest.isMemory dest.noIndex dest.location

end Findings

/-! ## What a definition asks for -/

section Definitions

variable {self : BackwardResolver} {cb : Callbacks} {i : Instruction} {a b : Operand}
variable {t : List (Event Resolver)} {v : ValueLattice} {fe : Option Nat} {dest : Nat}

/-- What the resolver makes of an outcome. -/
def verdict (i : Instruction) : Option LocatorOutcome → ValueLattice
  | some (.resolved value) => value
  | _ => .unknown .unsupportedOperandShape (i.mnem ++ " at " ++ hex i.ea)

/-- With a matching locator, a definition is interpreted by its extraction, within the same trace.
-/
theorem exec_interpretDefinition {l : Locator} (matched : self.registry.findMatch i = some l)
    (run : Exec (self.interpretDefinition cb i dest fe) t v) :
    ∃ t' ⊆ t, ∃ outcome, Exec (Prog.interpret (self.answerCallback cb)
      (l.extract self.port fe i dest)) t' outcome ∧ v = verdict i outcome := by
  rw [BackwardResolver.interpretDefinition, matched] at run
  obtain ⟨t₁, t₂, outcome, rfl, extracted, last⟩ := exec_bind.mp run
  simp only [BackwardResolver.safeExtract, bind_eq, Query.mark_bind] at extracted
  obtain ⟨_, t₃, rfl, marked⟩ := exec_call.mp extracted
  obtain ⟨t₄, t₅, raw, rfl, body, rest⟩ := exec_bind.mp marked
  obtain ⟨rfl, rfl⟩ := exec_pure.mp rest
  refine ⟨t₄, fun e member => by simp [member], raw, body, ?_⟩
  cases raw with
  | none =>
      obtain ⟨-, rfl⟩ := exec_pure.mp last
      rfl
  | some outcome =>
      cases outcome with
      | notApplicable =>
          obtain ⟨-, rfl⟩ := exec_pure.mp last
          rfl
      | resolved value =>
          obtain ⟨-, rfl⟩ := exec_pure.mp last
          rfl

/-- A definition that no locator matches is unknown. -/
theorem exec_interpretDefinition_unmatched (unmatched : self.registry.findMatch i = none)
    (run : Exec (self.interpretDefinition cb i dest fe) t v) : v.isKnown = false := by
  rw [BackwardResolver.interpretDefinition, unmatched] at run
  obtain ⟨-, rfl⟩ := exec_pure.mp run
  rfl

/-- An extraction that has its value asks nothing. -/
theorem exec_resolved {value : ValueLattice} {outcome : Option LocatorOutcome}
    (run : Exec (Prog.interpret (self.answerCallback cb) (Extraction.resolved value)) t outcome) :
    verdict i outcome = value := by
  obtain ⟨-, rfl⟩ := exec_pure.mp run
  rfl

/-- An extraction that asks once and makes something of the answer. -/
theorem exec_relay {o : Callback.Op} {f : ValueLattice → ValueLattice}
    {outcome : Option LocatorOutcome} (run : Exec (Prog.interpret (self.answerCallback cb)
      (.call o fun r => Extraction.resolved (f r))) t outcome) :
    ∃ t' ⊆ t, ∃ r, Exec (self.answerCallback cb o) t' r ∧ verdict i outcome = f r := by
  obtain ⟨t₁, t₂, r, rfl, asked, last⟩ := exec_interpret_call.mp run
  exact ⟨t₁, fun e member => by simp [member], r, asked, exec_resolved last⟩

end Definitions

/-! ## Definitions as word transfers -/

/-- The register or cell the resolver may be asked for. -/
def Supported (port : IdaPort) (W : Nat) : Place → Prop
  | .reg r => WholeReg port W r
  | .cell _ => True

/-- Whether an instruction is a definition of a place, as the resolver decides it. -/
def placeFinding (port : IdaPort) (funcEa : Nat) (i : Instruction) : Place → Option Finding
  | .reg r => registerFinding port i r
  | .cell k => memoryFinding port i k funcEa

/-- A concrete answer is the word at the place. -/
def Holds {W : Nat} (v : ValueLattice) (x : BitVec W) : Prop :=
  ∀ d k, v = .concrete d k → d = .int x.toNat

/-- On a part of the trace, the callbacks answered `v` for the place just before `i`. -/
def Asked (port : IdaPort) (funcEa : Nat) (cb : Callbacks) (t : List (Event Resolver))
    (i : Instruction) (v : ValueLattice) : Place → Prop
  | .reg r => ∃ t' ⊆ t, Exec (cb.resolveRegister (some r) i.ea) t' v
  | .cell k => ∃ base disp size, memoryLocation port base disp i.ea funcEa = k ∧
      ∃ t' ⊆ t, Exec (cb.resolveMemory base disp i.ea size) t' v

/-- How the value reported for a definition relates to what the definition does. -/
inductive Computed (port : IdaPort) (funcEa W : Nat) (cb : Callbacks) (t : List (Event Resolver))
    (i : Instruction) (op : Op Place) (p : Place) (v : ValueLattice) : Prop
  | silent : (∀ d k, v ≠ .concrete d k) → Computed port funcEa W cb t i op p v
  | const (n : Int) : (∀ s s' : State Place W, op.Step s s' → s' p = BitVec.ofInt W n) →
    0 ≤ n → n < 2 ^ W → (∃ k, v = .concrete (.int n) k) → Computed port funcEa W cb t i op p v
  | copied (q : Place) (n : Int) (base : ValueLattice) : op.Copies p q → Supported port W q →
    (∀ s s' : State Place W, op.Step s s' → s' p = s q + BitVec.ofInt W n) →
    Asked port funcEa cb t i base q →
    (∀ x : BitVec W, Holds base x → Holds v (x + BitVec.ofInt W n)) →
    Computed port funcEa W cb t i op p v

section Values

variable {W : Nat}

/-- A value that is not concrete claims nothing of a word. -/
theorem Holds.of_not_concrete {v : ValueLattice} (silent : ∀ d k, v ≠ .concrete d k)
    (x : BitVec W) : Holds v x :=
  fun d k same => (silent d k same).elim

/-- Adding zero changes no word. -/
theorem Holds.add_zero {v : ValueLattice} {x : BitVec W} (holds : Holds v x) :
    Holds v (x + BitVec.ofInt W 0) := by
  simpa using holds

/-- A number that fits the width stands for its own word. -/
theorem holds_ofInt {n : Int} (nonneg : 0 ≤ n) (lt : n < 2 ^ W) (k : ValueKind) :
    Holds (.concrete (.int n) k) (BitVec.ofInt W n) := by
  rintro d k' same
  obtain ⟨rfl, rfl⟩ := ValueLattice.concrete.inj same
  have wrapped : n % 2 ^ W = n := Int.emod_eq_of_lt nonneg lt
  rw [BitVec.toNat_ofInt]
  push_cast
  rw [wrapped, Int.toNat_of_nonneg nonneg]

/-- Wrapping to the operand's size is addition of words. -/
theorem wrapToWidth_add {size : Nat} (width : size * 8 = W) (positive : 0 < W) (le : W ≤ 64)
    (x : BitVec W) (n : Int) :
    wrapToWidth ((x.toNat : Int) + n) size = ((x + BitVec.ofInt W n).toNat : Int) := by
  have fits : 0 < size ∧ size ≤ 8 := by omega
  have nonneg : 0 ≤ n % (2 : Int) ^ W := Int.emod_nonneg _ (by positivity)
  rw [wrapToWidth, if_pos fits, width, BitVec.toNat_add, BitVec.toNat_ofInt]
  push_cast
  rw [Int.toNat_of_nonneg nonneg, Int.add_emod_emod]

/-- A base that is right gives an address that is right, wrapped to the width. -/
theorem holds_leaValue {size : Nat} {base : ValueLattice} {x : BitVec W} (width : size * 8 = W)
    (positive : 0 < W) (le : W ≤ 64) (disp : Int) (holds : Holds base x) :
    Holds (leaValue base disp size) (x + BitVec.ofInt W disp) := by
  cases known : base.intOf with
  | none =>
      refine .of_not_concrete (fun d k same => ?_) _
      rw [leaValue, known] at same
      dsimp only at same
      split at same
      · cases same
      · rename_i unknown
        rw [same] at unknown
        exact unknown rfl
  | some m =>
      obtain ⟨kind, rfl⟩ := ValueLattice.intOf_eq_some known
      have value := Datum.int.inj (holds _ _ rfl)
      intro d k same
      rw [leaValue, known] at same
      obtain ⟨rfl, -⟩ := ValueLattice.concrete.inj same
      rw [value, wrapToWidth_add width positive le]

/-- The value `add`/`sub` makes of the prior value of its register. -/
def addSubValue (prior : ValueLattice) (delta : Int) (size : Nat) : ValueLattice :=
  match prior.intOf with
  | none => prior
  | some n => .concrete (.int (wrapToWidth (n + delta) size)) .int

/-- A prior value that is right gives a sum that is right, wrapped to the width. -/
theorem holds_addSubValue {size : Nat} {prior : ValueLattice} {x : BitVec W}
    (width : size * 8 = W) (positive : 0 < W) (le : W ≤ 64) (delta : Int) (holds : Holds prior x) :
    Holds (addSubValue prior delta size) (x + BitVec.ofInt W delta) := by
  cases known : prior.intOf with
  | none =>
      -- a concrete prior value that holds of a word is an integer
      refine .of_not_concrete (fun d k same => ?_) _
      rw [addSubValue, known] at same
      dsimp only at same
      rw [same, holds d k same] at known
      cases known
  | some m =>
      obtain ⟨kind, rfl⟩ := ValueLattice.intOf_eq_some known
      have value := Datum.int.inj (holds _ _ rfl)
      intro d k same
      rw [addSubValue, known] at same
      obtain ⟨rfl, -⟩ := ValueLattice.concrete.inj same
      rw [value, wrapToWidth_add width positive le]

end Values

section Places

variable {port : IdaPort} {funcEa W : Nat} {i : Instruction} {a b : Operand} {p : Place}

/-- An instruction that writes one register defines this place only. -/
theorem placeFinding_dest {d : Nat} (notCall : i.isCall = false) (pair : Pair i a b true false)
    (dest : RegOperand port W a d) (supported : Supported port W p) :
    placeFinding port funcEa i p = if p = .reg d then some (.interpret 0) else none := by
  cases p with
  | reg q => simp [placeFinding, registerFinding_dest notCall pair dest supported, eq_comm]
  | cell k => simp [placeFinding, memoryFinding_dest pair dest.kind]

/-- An exchange defines the places of its two registers only. -/
theorem placeFinding_xchg {d r : Nat} (notCall : i.isCall = false) (pair : Pair i a b true true)
    (left : RegOperand port W a d) (right : RegOperand port W b r)
    (supported : Supported port W p) :
    placeFinding port funcEa i p =
      if p = .reg d then some (.interpret 0)
      else if p = .reg r then some (.interpret 1) else none := by
  cases p with
  | reg q => simp [placeFinding, registerFinding_xchg notCall pair left right supported, eq_comm]
  | cell k => simp [placeFinding, memoryFinding_xchg pair left.kind right.kind]

/-- A store defines the cell of its destination only. -/
theorem placeFinding_store {k : MemoryKey} (notCall : i.isCall = false)
    (pair : Pair i a b true false) (dest : CellOperand port funcEa i.ea a k) :
    placeFinding port funcEa i p = if p = .cell k then some (.interpret 0) else none := by
  cases p with
  | reg q => simp [placeFinding, registerFinding_store notCall pair dest.isMemory]
  | cell key => simp [placeFinding, memoryFinding_store pair dest, eq_comm]

/-- A place that is not found defined is not the destination register. -/
theorem ne_of_missed_dest {d : Nat} (notCall : i.isCall = false) (pair : Pair i a b true false)
    (dest : RegOperand port W a d) (supported : Supported port W p)
    (missed : placeFinding port funcEa i p = none) : p ≠ .reg d := by
  intro same
  subst same
  rw [placeFinding_dest notCall pair dest supported, if_pos rfl] at missed
  cases missed

/-- A place that is not found defined is not the stored cell. -/
theorem ne_of_missed_store {k : MemoryKey} (notCall : i.isCall = false)
    (pair : Pair i a b true false) (dest : CellOperand port funcEa i.ea a k)
    (missed : placeFinding port funcEa i p = none) : p ≠ .cell k := by
  intro same
  subst same
  rw [placeFinding_store notCall pair dest, if_pos rfl] at missed
  cases missed

/-- What is flagged is a definition. -/
theorem not_flagged_of_missed (whole : WholeOperands port W i) (supported : Supported port W p)
    (missed : placeFinding port funcEa i p = none) : ¬ Flagged port funcEa i p := by
  intro flagged
  cases p with
  | reg q =>
      have operands := registerOperandFinding_of_missed missed
      rw [registerOperandFinding_whole supported fun op member reg _ => whole op member reg,
        Option.map_eq_none_iff, List.find?_eq_none] at operands
      obtain ⟨op, member, candidate⟩ := flagged
      exact operands op member (by simpa using candidate)
  | cell k =>
      rw [placeFinding] at missed
      rw [Flagged, missed] at flagged
      cases flagged

/-- What a call may change is a definition. -/
theorem not_callChanges_of_missed (whole : WholeOperands port W i)
    (supported : Supported port W p) (missed : placeFinding port funcEa i p = none)
    (call : i.isCall) : ¬ CallChanges port funcEa i p := by
  intro given
  rcases given with ⟨r, clobbered, rfl⟩ | flagged
  · have lost : isCallClobbered port r = true := by simp [isCallClobbered, clobbered]
    simp only [placeFinding, registerFinding, call, lost] at missed
    split at missed <;> simp at missed
  · exact not_flagged_of_missed whole supported missed flagged

end Places

/-! ## The two facts about a form -/

/-- What is reported without a locator for a register is unknown. -/
theorem registerOperandFinding_report {port : IdaPort} {i : Instruction} {q : Nat}
    {v : ValueLattice} {ops : List Operand}
    (found : registerOperandFinding port i q ops = some (.report v)) : v.isKnown = false := by
  induction ops with
  | nil => cases found
  | cons op ops ih =>
      unfold registerOperandFinding at found
      split at found
      · split at found
        · split at found
          · exact ih found
          · split at found
            · cases found
            · cases found
              rfl
        · split at found
          · cases found
          · exact ih found
      · exact ih found

/-- What is reported without a locator for a cell is unknown. -/
theorem memoryOperandFinding_report {port : IdaPort} {i : Instruction} {key : MemoryKey}
    {funcEa : Nat} {v : ValueLattice} {ops : List Operand}
    (found : memoryOperandFinding port i key funcEa ops = some (.report v)) :
    v.isKnown = false := by
  induction ops with
  | nil => cases found
  | cons op ops ih =>
      unfold memoryOperandFinding at found
      split at found
      · split at found
        · exact ih found
        · split at found
          · split at found
            · cases found
              rfl
            · exact ih found
          · split at found
            · exact ih found
            · cases found
      · exact ih found

/-- What the matching functions report by themselves is unknown. -/
theorem placeFinding_report {port : IdaPort} {funcEa : Nat} {i : Instruction} {p : Place}
    {v : ValueLattice} (found : placeFinding port funcEa i p = some (.report v)) :
    v.isKnown = false := by
  cases p with
  | reg q =>
      simp only [placeFinding, registerFinding] at found
      split at found
      · cases found
      · split at found
        · cases found
          rfl
        · exact registerOperandFinding_report found
  | cell k => exact memoryOperandFinding_report found

/-- A finding that is reported as it is never is a concrete value. -/
theorem silent_report {self : BackwardResolver} {cb : Callbacks} {funcEa : Nat} {i : Instruction}
    {p : Place} {t : List (Event Resolver)} {v value : ValueLattice}
    (found : placeFinding self.port funcEa i p = some (.report value))
    (run : Exec (self.settle cb i funcEa (.report value)) t v) : ∀ d k, v ≠ .concrete d k := by
  obtain ⟨-, rfl⟩ := exec_pure.mp run
  have unknown := placeFinding_report found
  intro d k same
  subst same
  cases unknown

section Forms

variable {self : BackwardResolver} {funcEa W : Nat} {i : Instruction} {op : Op Place} {p : Place}

/-- What an instruction is no definition of, it leaves alone. -/
theorem form_frame {port : IdaPort} (form : Form port funcEa W i op)
    (supported : Supported port W p) (missed : placeFinding port funcEa i p = none) :
    ¬ op.Writes p := by
  cases form with
  | register form =>
      cases form with
      | movImm mnem pair dest =>
          exact ne_of_missed_dest (not_isCall_of_mnem mnem (by decide)) pair dest supported missed
      | movReg mnem pair dest =>
          exact ne_of_missed_dest (not_isCall_of_mnem mnem (by decide)) pair dest supported missed
      | leaAddr mnem pair dest =>
          exact ne_of_missed_dest (not_isCall_of_mnem mnem (by decide)) pair dest supported missed
      | leaDispl mnem pair dest =>
          exact ne_of_missed_dest (not_isCall_of_mnem mnem (by decide)) pair dest supported missed
      | addImm mnem pair dest =>
          exact ne_of_missed_dest (not_isCall_of_mnem mnem (by decide)) pair dest supported missed
      | subImm mnem pair dest =>
          exact ne_of_missed_dest (not_isCall_of_mnem mnem (by decide)) pair dest supported missed
      | zero mnem pair dest =>
          have notCall : i.isCall = false := by
            rcases mnem with mnem | mnem
            · exact not_isCall_of_mnem mnem (by decide)
            · exact not_isCall_of_mnem mnem (by decide)
          exact ne_of_missed_dest notCall pair dest supported missed
      | xchg mnem pair left right =>
          rw [placeFinding_xchg (not_isCall_of_mnem mnem (by decide)) pair left right supported]
            at missed
          intro given
          rcases given with rfl | rfl
          · simp at missed
          · split at missed <;> simp at missed
      | cmov cmov pair dest =>
          exact ne_of_missed_dest (not_isCall_of_cmov cmov) pair dest supported missed
      | call call whole => exact not_callChanges_of_missed whole supported missed call
      | unmatched _ whole => exact not_flagged_of_missed whole supported missed
  | storeImm mnem pair dest =>
      exact ne_of_missed_store (not_isCall_of_mnem mnem (by decide)) pair dest missed
  | storeReg mnem pair dest =>
      exact ne_of_missed_store (not_isCall_of_mnem mnem (by decide)) pair dest missed
  | load mnem pair dest =>
      exact ne_of_missed_dest (not_isCall_of_mnem mnem (by decide)) pair dest supported missed

/-- The place that an instruction with one written register defines is that register. -/
theorem dest_of_found {port : IdaPort} {a b : Operand} {d : Nat} {f : Finding}
    (notCall : i.isCall = false) (pair : Pair i a b true false) (dest : RegOperand port W a d)
    (supported : Supported port W p) (found : placeFinding port funcEa i p = some f) :
    p = .reg d ∧ f = .interpret 0 := by
  rw [placeFinding_dest notCall pair dest supported] at found
  split at found
  · rename_i same
    cases found
    exact ⟨same, rfl⟩
  · cases found

/-- The place that a store defines is its cell. -/
theorem store_of_found {port : IdaPort} {a b : Operand} {k : MemoryKey} {f : Finding}
    (notCall : i.isCall = false) (pair : Pair i a b true false)
    (dest : CellOperand port funcEa i.ea a k)
    (found : placeFinding port funcEa i p = some f) : p = .cell k ∧ f = .interpret 0 := by
  rw [placeFinding_store notCall pair dest] at found
  split at found
  · rename_i same
    cases found
    exact ⟨same, rfl⟩
  · cases found

section Computes

variable {cb : Callbacks} {t : List (Event Resolver)} {v : ValueLattice} {f : Finding}
/-- `add`/`sub` asks for its own register. -/
theorem addSubRegImm_extract {port : IdaPort} {a b : Operand} {fe : Option Nat} {dest : Nat}
    {delta : Int} (h0 : i.operand 0 = some a) (h1 : i.operand 1 = some b)
    (amount : addSubDelta i b = some delta) :
    addSubRegImm.extract port fe i dest = .call (.resolveRegister a.reg i.ea) fun prior =>
      Extraction.resolved (addSubValue prior delta a.dtypeSize) := by
  change withOperand i 0 _ = _
  rw [withOperand_some h0, withOperand_some h1]
  change Prog.call _ _ = _
  congr 1
  funext prior
  simp only [bind_pure_left, addSubValue, amount]
  cases prior.intOf with
  | none => rfl
  | some n => rfl

/-- A load asks for the cell it names. -/
theorem exec_loadMemoryOperand {op : Operand} {k : MemoryKey}
    {outcome : Option LocatorOutcome} (cell : CellOperand self.port funcEa i.ea op k)
    (run : Exec (Prog.interpret (self.answerCallback cb)
      ((loadMemoryOperand self.port op i.ea).bind Extraction.resolved)) t outcome) :
    ∃ base disp size, memoryLocation self.port base disp i.ea funcEa = k ∧ ∃ t' ⊆ t,
      ∃ r, Exec (cb.resolveMemory base disp i.ea size) t' r ∧ verdict i outcome = r := by
  have addressed : unsupportedAddressShape op = none := by
    have noIndex : op.indexReg = none := by simpa [Operand.hasIndex] using cell.noIndex
    simp [unsupportedAddressShape, noIndex, cell.noSegment]
  have located := cell.location
  simp only [operandLocation, cell.noSegment, Bool.false_eq_true, if_false] at located
  rw [loadMemoryOperand, addressed] at run
  dsimp only at run
  by_cases direct : op.kind = .memDirect
  · rw [dif_pos direct] at run
    rw [dif_pos direct] at located
    obtain ⟨t', sub, r, asked, same⟩ := exec_relay (i := i) (f := fun r => r) run
    exact ⟨_, _, _, Option.some.inj located, t', sub, r, asked, same⟩
  · have shape : op.kind = .memPhrase ∨ op.kind = .memDispl := by
      simpa [Operand.isMemory, direct] using cell.isMemory
    rw [dif_neg direct, if_pos shape] at run
    rw [dif_neg direct] at located
    cases base : op.reg with
    | none =>
        rw [base] at located
        cases located
    | some r =>
        rw [base] at run located
        obtain ⟨t', sub, r, asked, same⟩ := exec_relay (i := i) (f := fun r => r) run
        exact ⟨_, _, _, Option.some.inj located, t', sub, r, asked, same⟩

variable (builtin : self.registry = defaultRegistry)
include builtin

/-- An extraction that is a number. -/
theorem computes_const {l : Locator} {op : Op Place} {p : Place} {dest : Nat} {n : Int}
    {k : ValueKind} (matched : defaultRegistry.findMatch i = some l)
    (extracted : l.extract self.port (some funcEa) i dest =
      Extraction.resolved (.concrete (.int n) k))
    (sets : ∀ s s' : State Place W, op.Step s s' → s' p = BitVec.ofInt W n) (nonneg : 0 ≤ n)
    (lt : n < 2 ^ W) (run : Exec (self.interpretDefinition cb i dest (some funcEa)) t v) :
    Computed self.port funcEa W cb t i op p v := by
  rw [← builtin] at matched
  obtain ⟨t', sub, outcome, ran, rfl⟩ := exec_interpretDefinition matched run
  rw [extracted] at ran
  exact .const n sets nonneg lt ⟨k, exec_resolved ran⟩

/-- An extraction that asks for a register and makes something of the answer. -/
theorem computes_relay {l : Locator} {op : Op Place} {p : Place} {dest q : Nat} {n : Int}
    {f : ValueLattice → ValueLattice} (matched : defaultRegistry.findMatch i = some l)
    (extracted : l.extract self.port (some funcEa) i dest =
      .call (.resolveRegister (some q) i.ea) fun r => Extraction.resolved (f r))
    (copies : op.Copies p (.reg q)) (whole : WholeReg self.port W q)
    (moves : ∀ s s' : State Place W, op.Step s s' → s' p = s (.reg q) + BitVec.ofInt W n)
    (holds : ∀ base (x : BitVec W), Holds base x → Holds (f base) (x + BitVec.ofInt W n))
    (run : Exec (self.interpretDefinition cb i dest (some funcEa)) t v) :
    Computed self.port funcEa W cb t i op p v := by
  rw [← builtin] at matched
  obtain ⟨t', sub, outcome, ran, rfl⟩ := exec_interpretDefinition matched run
  rw [extracted] at ran
  obtain ⟨t₁, inside, base, asked, same⟩ := exec_relay (i := i) ran
  refine .copied (.reg q) n base copies whole moves
    ⟨t₁, fun e member => sub (inside member), asked⟩ fun x held => ?_
  rw [same]
  exact holds base x held

/-- The value of a `mov` of an immediate is the constant. -/
theorem computes_movImm {a b : Operand} {d : Nat} {n : Int} (mnem : i.mnem = "mov")
    (pair : Pair i a b true false) (dest : RegOperand self.port W a d) (imm : ImmOperand W b n)
    (run : Exec (self.interpretDefinition cb i 0 (some funcEa)) t v) :
    Computed self.port funcEa W cb t i (.const (.reg d) n) (.reg d) v := by
  have matched := findMatch_movImm mnem pair dest.kind imm.kind
  refine computes_const (k := .int) builtin matched ?_ (fun _ _ step => step.const_eq) imm.nonneg
    imm.lt run
  rw [movRegImm_extract pair.operand_one, imm.value]
  rfl

/-- The value of a `mov` between registers is the source's. -/
theorem computes_movReg {a b : Operand} {d r : Nat} (mnem : i.mnem = "mov")
    (pair : Pair i a b true false) (dest : RegOperand self.port W a d)
    (src : RegOperand self.port W b r)
    (run : Exec (self.interpretDefinition cb i 0 (some funcEa)) t v) :
    Computed self.port funcEa W cb t i (.offset (.reg d) (.reg r) 0) (.reg d) v := by
  have matched := findMatch_movReg mnem pair dest.kind src.kind
  refine computes_relay (f := fun r => r) builtin matched ?_ ⟨rfl, rfl⟩ src.whole
    (fun _ _ step => step.offset_eq) (fun _ _ holds => holds.add_zero) run
  rw [movRegReg_extract pair.operand_one, src.reg]

/-- The value of a `lea` of a fixed address is the address. -/
theorem computes_leaAddr {a b : Operand} {d : Nat} {n : Int} (mnem : i.mnem = "lea")
    (pair : Pair i a b true false) (dest : RegOperand self.port W a d)
    (direct : b.kind = .memDirect) (addr : b.addr = some n) (nonneg : 0 ≤ n) (lt : n < 2 ^ W)
    (run : Exec (self.interpretDefinition cb i 0 (some funcEa)) t v) :
    Computed self.port funcEa W cb t i (.const (.reg d) n) (.reg d) v := by
  have matched := findMatch_leaAddr mnem pair dest.kind direct
  refine computes_const (k := .pointer) builtin matched ?_ (fun _ _ step => step.const_eq) nonneg
    lt run
  rw [leaRegAddr_extract pair.operand_one, addr]
  rfl

/-- The value of a `lea` of base plus displacement is the base's, moved. -/
theorem computes_leaDispl (positive : 0 < W) (le : W ≤ 64) {a b : Operand} {d r : Nat}
    (mnem : i.mnem = "lea") (pair : Pair i a b true false) (dest : RegOperand self.port W a d)
    (shape : b.kind = .memDispl ∨ b.kind = .memPhrase) (reg : b.reg = some r)
    (whole : WholeReg self.port W r) (plain : b.hasIndex = false)
    (run : Exec (self.interpretDefinition cb i 0 (some funcEa)) t v) :
    Computed self.port funcEa W cb t i (.offset (.reg d) (.reg r) b.disp) (.reg d) v := by
  have matched := findMatch_leaDispl mnem pair dest.kind shape (by simp [reg]) plain
  refine computes_relay (f := fun r => leaValue r b.disp a.dtypeSize) builtin matched ?_ ⟨rfl, rfl⟩
    whole (fun _ _ step => step.offset_eq)
    (fun _ _ holds => holds_leaValue dest.width positive le b.disp holds) run
  rw [leaRegDispl_extract pair.operand_zero pair.operand_one, reg]

/-- The value of an `add` or `sub` is the destination's own, moved. -/
theorem computes_addSub (positive : 0 < W) (le : W ≤ 64) {a b : Operand} {d : Nat} {n delta : Int}
    (mnem : i.mnem = "add" ∨ i.mnem = "sub") (pair : Pair i a b true false)
    (dest : RegOperand self.port W a d) (imm : ImmOperand W b n)
    (signed : (if i.mnem = "add" then n else -n) = delta)
    (run : Exec (self.interpretDefinition cb i 0 (some funcEa)) t v) :
    Computed self.port funcEa W cb t i (.offset (.reg d) (.reg d) delta) (.reg d) v := by
  have matched := findMatch_addSub mnem pair dest.kind imm.kind
  have amount : addSubDelta i b = some delta := by
    rw [addSubDelta, imm.value, Option.map_some, signed]
  refine computes_relay (f := fun r => addSubValue r delta a.dtypeSize) builtin matched ?_
    ⟨rfl, rfl⟩ dest.whole (fun _ _ step => step.offset_eq)
    (fun _ _ holds => holds_addSubValue dest.width positive le delta holds) run
  rw [addSubRegImm_extract pair.operand_zero pair.operand_one amount, dest.reg]

/-- The value of a zero idiom is zero. -/
theorem computes_zero {a b : Operand} {d : Nat} (mnem : i.mnem = "xor" ∨ i.mnem = "sub")
    (pair : Pair i a b true false) (dest : RegOperand self.port W a d)
    (src : RegOperand self.port W b d)
    (run : Exec (self.interpretDefinition cb i 0 (some funcEa)) t v) :
    Computed self.port funcEa W cb t i (.const (.reg d) 0) (.reg d) v := by
  have matched := findMatch_zero mnem pair dest.kind src.kind (dest.reg.trans src.reg.symm)
  exact computes_const builtin matched rfl (fun _ _ step => step.const_eq) (Int.le_refl 0)
    (by positivity) run

/-- Operand `dest` of an exchange takes the value of the other one. -/
theorem computes_xchg {a b x : Operand} {d r q : Nat} {dest : Nat} (mnem : i.mnem = "xchg")
    (pair : Pair i a b true true) (left : RegOperand self.port W a d)
    (right : RegOperand self.port W b r) (low : dest ≤ 1) (other : i.operand (1 - dest) = some x)
    (operand : RegOperand self.port W x q) {p : Place}
    (copies : (Op.swap (Place.reg d) (.reg r)).Copies p (.reg q))
    (run : Exec (self.interpretDefinition cb i dest (some funcEa)) t v) :
    Computed self.port funcEa W cb t i (.swap (.reg d) (.reg r)) p v := by
  have matched := findMatch_xchg mnem pair left.kind right.kind
  have moves : ∀ s s' : State Place W, (Op.swap (Place.reg d) (.reg r)).Step s s' →
      s' p = s (.reg q) + BitVec.ofInt W 0 := by
    intro s s' step
    rw [step.swap_eq copies]
    simp
  refine computes_relay (f := fun r => r) builtin matched ?_ copies operand.whole moves
    (fun _ _ holds => holds.add_zero) run
  rw [xchgRegReg_extract (by rw [if_pos low, other]) operand.kind, operand.reg]

/-- A conditional move gives no concrete value. -/
theorem silent_cmov {a b : Operand} {d dest : Nat} (cmov : startsWith i.mnem "cmov")
    (pair : Pair i a b true false) (target : RegOperand self.port W a d)
    (run : Exec (self.interpretDefinition cb i dest (some funcEa)) t v) :
    ∀ d k, v ≠ .concrete d k := by
  have matched := findMatch_cmov cmov pair target.kind
  rw [← builtin] at matched
  obtain ⟨t', sub, outcome, extracted, rfl⟩ := exec_interpretDefinition matched run
  rw [exec_resolved extracted]
  simp

/-- A call gives no concrete value. -/
theorem silent_call {dest : Nat} (call : i.isCall)
    (run : Exec (self.interpretDefinition cb i dest (some funcEa)) t v) :
    ∀ d k, v ≠ .concrete d k := by
  have matched := findMatch_call call
  rw [← builtin] at matched
  obtain ⟨t', sub, outcome, extracted, rfl⟩ := exec_interpretDefinition matched run
  rw [exec_resolved extracted]
  simp

/-- An instruction that no locator matches gives no concrete value. -/
theorem silent_unmatched {dest : Nat} (unmatched : defaultRegistry.findMatch i = none)
    (run : Exec (self.interpretDefinition cb i dest (some funcEa)) t v) :
    ∀ d k, v ≠ .concrete d k := by
  rw [← builtin] at unmatched
  have unknown := exec_interpretDefinition_unmatched unmatched run
  intro d k same
  subst same
  cases unknown

/-- `mov [mem], imm` reports its immediate. -/
theorem exec_movMemImm {a b : Operand} {n : Int} {fe : Option Nat} (mnem : i.mnem = "mov")
    (pair : Pair i a b true false) (dest : a.isMemory = true) (imm : b.kind = .immediate)
    (value : b.immValue = some n) (run : Exec (self.interpretDefinition cb i 0 fe) t v) :
    v = .concrete (.int n) .int := by
  have matched := findMatch_movMemImm mnem pair dest imm
  rw [← builtin] at matched
  obtain ⟨t', sub, outcome, extracted, rfl⟩ := exec_interpretDefinition matched run
  rw [movMemImm_extract pair.operand_one] at extracted
  rw [exec_resolved extracted, value]
  rfl

/-- The value stored by a `mov` of an immediate is the constant. -/
theorem computes_storeImm {a b : Operand} {k : MemoryKey} {n : Int} (mnem : i.mnem = "mov")
    (pair : Pair i a b true false) (dest : CellOperand self.port funcEa i.ea a k)
    (imm : ImmOperand W b n)
    (run : Exec (self.interpretDefinition cb i 0 (some funcEa)) t v) :
    Computed self.port funcEa W cb t i (.const (.cell k) n) (.cell k) v := by
  have matched := findMatch_movMemImm mnem pair dest.isMemory imm.kind
  refine computes_const (k := .int) builtin matched ?_ (fun _ _ step => step.const_eq) imm.nonneg
    imm.lt run
  rw [movMemImm_extract pair.operand_one, imm.value]
  rfl

/-- The value stored from a register is the register's. -/
theorem computes_storeReg {a b : Operand} {k : MemoryKey} {r : Nat} (mnem : i.mnem = "mov")
    (pair : Pair i a b true false) (dest : CellOperand self.port funcEa i.ea a k)
    (src : RegOperand self.port W b r)
    (run : Exec (self.interpretDefinition cb i 0 (some funcEa)) t v) :
    Computed self.port funcEa W cb t i (.offset (.cell k) (.reg r) 0) (.cell k) v := by
  have matched := findMatch_movMemReg mnem pair dest.isMemory src.kind
  refine computes_relay (f := fun r => r) builtin matched ?_ ⟨rfl, rfl⟩ src.whole
    (fun _ _ step => step.offset_eq) (fun _ _ holds => holds.add_zero) run
  rw [movMemReg_extract pair.operand_one, src.reg]

/-- The value that is loaded is the cell's. -/
theorem computes_load {a b : Operand} {k : MemoryKey} {d : Nat} (mnem : i.mnem = "mov")
    (pair : Pair i a b true false) (dest : RegOperand self.port W a d)
    (src : CellOperand self.port funcEa i.ea b k)
    (run : Exec (self.interpretDefinition cb i 0 (some funcEa)) t v) :
    Computed self.port funcEa W cb t i (.offset (.reg d) (.cell k) 0) (.reg d) v := by
  have matched := findMatch_movRegMem mnem pair dest.kind src.isMemory
  rw [← builtin] at matched
  obtain ⟨t', sub, outcome, extracted, rfl⟩ := exec_interpretDefinition matched run
  rw [movRegMem_extract pair.operand_one] at extracted
  obtain ⟨base, disp, size, location, t₁, inside, r, asked, same⟩ :=
    exec_loadMemoryOperand src extracted
  refine .copied (.cell k) 0 r ⟨rfl, rfl⟩ trivial ?_
    ⟨base, disp, size, location, t₁, fun e member => sub (inside member), asked⟩ fun x holds => ?_
  · exact fun _ _ step => step.offset_eq
  · rw [same]
    exact holds.add_zero

/-- The value reported for a definition is silent, or follows from what the definition
does to the word at the place. -/
theorem form_computes (positive : 0 < W) (le : W ≤ 64) (form : Form self.port funcEa W i op)
    (supported : Supported self.port W p) (found : placeFinding self.port funcEa i p = some f)
    (run : Exec (self.settle cb i funcEa f) t v) :
    Computed self.port funcEa W cb t i op p v := by
  cases form with
  | register form =>
      cases form with
      | movImm mnem pair dest imm =>
          obtain ⟨rfl, rfl⟩ := dest_of_found (not_isCall_of_mnem mnem (by decide)) pair dest
            supported found
          exact computes_movImm builtin mnem pair dest imm run
      | movReg mnem pair dest src =>
          obtain ⟨rfl, rfl⟩ := dest_of_found (not_isCall_of_mnem mnem (by decide)) pair dest
            supported found
          exact computes_movReg builtin mnem pair dest src run
      | leaAddr mnem pair dest direct addr nonneg lt =>
          obtain ⟨rfl, rfl⟩ := dest_of_found (not_isCall_of_mnem mnem (by decide)) pair dest
            supported found
          exact computes_leaAddr builtin mnem pair dest direct addr nonneg lt run
      | leaDispl mnem pair dest shape reg whole plain =>
          obtain ⟨rfl, rfl⟩ := dest_of_found (not_isCall_of_mnem mnem (by decide)) pair dest
            supported found
          exact computes_leaDispl builtin positive le mnem pair dest shape reg whole plain run
      | addImm mnem pair dest imm =>
          obtain ⟨rfl, rfl⟩ := dest_of_found (not_isCall_of_mnem mnem (by decide)) pair dest
            supported found
          exact computes_addSub builtin positive le (Or.inl mnem) pair dest imm (if_pos mnem) run
      | subImm mnem pair dest imm =>
          obtain ⟨rfl, rfl⟩ := dest_of_found (not_isCall_of_mnem mnem (by decide)) pair dest
            supported found
          have notAdd : i.mnem ≠ "add" := by simp [mnem]
          exact computes_addSub builtin positive le (Or.inr mnem) pair dest imm (if_neg notAdd) run
      | zero mnem pair dest src =>
          have notCall : i.isCall = false := by
            rcases mnem with mnem | mnem
            · exact not_isCall_of_mnem mnem (by decide)
            · exact not_isCall_of_mnem mnem (by decide)
          obtain ⟨rfl, rfl⟩ := dest_of_found notCall pair dest supported found
          exact computes_zero builtin mnem pair dest src run
      | @xchg a b d r mnem pair left right =>
          rw [placeFinding_xchg (not_isCall_of_mnem mnem (by decide)) pair left right supported]
            at found
          by_cases first : p = .reg d
          · subst first
            rw [if_pos rfl] at found
            cases found
            exact computes_xchg builtin mnem pair left right (by omega) pair.operand_one right
              (Or.inr ⟨rfl, rfl⟩) run
          · rw [if_neg first] at found
            by_cases second : p = .reg r
            · subst second
              rw [if_pos rfl] at found
              cases found
              exact computes_xchg builtin mnem pair left right (by omega) pair.operand_zero left
                (Or.inl ⟨rfl, rfl⟩) run
            · rw [if_neg second] at found
              cases found
      | cmov cmov pair dest =>
          obtain ⟨rfl, rfl⟩ := dest_of_found (not_isCall_of_cmov cmov) pair dest supported found
          exact .silent (silent_cmov builtin cmov pair dest run)
      | call call whole =>
          cases f with
          | interpret operand => exact .silent (silent_call builtin call run)
          | report value => exact .silent (silent_report found run)
      | unmatched unmatched whole =>
          cases f with
          | interpret operand => exact .silent (silent_unmatched builtin unmatched run)
          | report value => exact .silent (silent_report found run)
  | storeImm mnem pair dest imm =>
      obtain ⟨rfl, rfl⟩ := store_of_found (not_isCall_of_mnem mnem (by decide)) pair dest found
      exact computes_storeImm builtin mnem pair dest imm run
  | storeReg mnem pair dest src =>
      obtain ⟨rfl, rfl⟩ := store_of_found (not_isCall_of_mnem mnem (by decide)) pair dest found
      exact computes_storeReg builtin mnem pair dest src run
  | load mnem pair dest src =>
      obtain ⟨rfl, rfl⟩ := dest_of_found (not_isCall_of_mnem mnem (by decide)) pair dest
        supported found
      exact computes_load builtin mnem pair dest src run

end Computes

end Forms

end IDAnalysister
