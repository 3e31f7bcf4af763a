import IDAnalysister.Agreement.Instructions

/-!
# Definitions in both engines

An instruction that the resolver does not take for a definition of a place leaves it to
the forward engine as it is, or makes it vague. One that it does take for a definition
leaves there what the resolver reports, as long as the callbacks agree with the state
before the instruction. The cases are the built-in locators.
-/

namespace IDAnalysister

open Effect Prog AbstractState ForwardSymbolicEngine

/-! ## What the matching functions look at -/

section Findings

variable {port : IdaPort} {i : Instruction} {op : Operand} {ops : List Operand}

/-- A written register that is no definition names a part of another one. -/
theorem parent_ne_of_missed {q : Nat} (missed : registerOperandFinding port i q ops = none)
    (member : op ∈ ops) (reg : op.kind = .reg) (written : i.isWritten op.number)
    (named : op.reg = some q) : ∃ query write, port.registerView q 0 = some query ∧
      port.registerView q op.dtypeSize = some write ∧ write.parent ≠ query.parent := by
  induction ops with
  | nil => cases member
  | cons op' ops ih =>
      unfold registerOperandFinding at missed
      rcases List.mem_cons.mp member with rfl | later
      · rw [if_pos ⟨reg, written⟩, named, Option.bind_some] at missed
        cases query : port.registerView q 0 with
        | none => simp [query] at missed
        | some view =>
            cases write : port.registerView q op.dtypeSize with
            | none => simp [query, write] at missed
            | some part =>
                refine ⟨view, part, rfl, rfl, ?_⟩
                intro same
                simp only [query, write, same, ne_eq, not_true, if_false] at missed
                split at missed <;> cases missed
      · split at missed
        · split at missed
          · split at missed
            · exact ih missed later
            · split at missed <;> cases missed
          · split at missed
            · cases missed
            · exact ih missed later
        · exact ih missed later

/-- A definition of a register is a written operand that names it, or a part of it. -/
theorem operand_of_registerFinding {q : Nat} {f : Finding}
    (found : registerOperandFinding port i q ops = some f) :
    (∃ value, f = .report value) ∨ ∃ op ∈ ops, op.kind = .reg ∧ i.isWritten op.number ∧
      f = .interpret op.number ∧ (op.reg = some q ∨ ∃ query write,
        port.registerView q 0 = some query ∧ op.reg.bind (port.registerView · op.dtypeSize) =
          some write ∧ write.parent = query.parent) := by
  induction ops with
  | nil => cases found
  | cons op ops ih =>
      have later (rest : registerOperandFinding port i q ops = some f) :
          (∃ value, f = .report value) ∨ ∃ op' ∈ op :: ops, op'.kind = .reg ∧
            i.isWritten op'.number ∧ f = .interpret op'.number ∧ (op'.reg = some q ∨
              ∃ query write, port.registerView q 0 = some query ∧
                op'.reg.bind (port.registerView · op'.dtypeSize) = some write ∧
                write.parent = query.parent) := by
        apply (ih rest).imp_right
        intro inner
        rcases inner with ⟨op', member, shape⟩
        exact ⟨op', List.mem_cons_of_mem _ member, shape⟩
      unfold registerOperandFinding at found
      split at found
      · rename_i candidate
        split at found
        · rename_i query write known part
          split at found
          · exact later found
          · rename_i same
            split at found
            · cases found
              exact Or.inr ⟨op, List.mem_cons_self, candidate.1, candidate.2, rfl,
                Or.inr ⟨query, write, known, part, not_not.mp same⟩⟩
            · cases found
              exact Or.inl ⟨_, rfl⟩
        · split at found
          · rename_i named
            cases found
            exact Or.inr ⟨op, List.mem_cons_self, candidate.1, candidate.2, rfl, Or.inl named⟩
          · exact later found
      · exact later found

/-- A written cell is a definition. -/
theorem memoryOperandFinding_ne_none {key : MemoryKey} {funcEa : Nat} (member : op ∈ ops)
    (memory : op.isMemory) (written : i.isWritten op.number) (noIndex : op.hasIndex = false)
    (located : operandLocation port op i.ea funcEa = some key) :
    memoryOperandFinding port i key funcEa ops ≠ none := by
  induction ops with
  | nil => cases member
  | cons op' ops ih =>
      unfold memoryOperandFinding
      rcases List.mem_cons.mp member with rfl | later
      · rw [if_pos ⟨memory, written⟩, located]
        simp [noIndex]
      · have rest := ih later
        split
        · split
          · exact rest
          · split
            · split
              · simp
              · exact rest
            · split
              · exact rest
              · simp
        · exact rest

/-- A definition of a cell is a written operand that names it. -/
theorem operand_of_memoryFinding {key : MemoryKey} {funcEa : Nat} {f : Finding}
    (found : memoryOperandFinding port i key funcEa ops = some f) :
    (∃ value, f = .report value) ∨ ∃ op ∈ ops, op.isMemory ∧ i.isWritten op.number ∧
      f = .interpret op.number ∧ op.hasIndex = false ∧
      operandLocation port op i.ea funcEa = some key := by
  induction ops with
  | nil => cases found
  | cons op ops ih =>
      have later (rest : memoryOperandFinding port i key funcEa ops = some f) :
          (∃ value, f = .report value) ∨ ∃ op' ∈ op :: ops, op'.isMemory ∧
            i.isWritten op'.number ∧ f = .interpret op'.number ∧ op'.hasIndex = false ∧
            operandLocation port op' i.ea funcEa = some key := by
        apply (ih rest).imp_right
        intro inner
        rcases inner with ⟨op', member, shape⟩
        exact ⟨op', List.mem_cons_of_mem _ member, shape⟩
      unfold memoryOperandFinding at found
      split at found
      · rename_i candidate
        split at found
        · exact later found
        · rename_i space offset located
          split at found
          · split at found
            · cases found
              exact Or.inl ⟨_, rfl⟩
            · exact later found
          · rename_i noIndex
            split at found
            · exact later found
            · rename_i same
              cases found
              rw [not_not.mp same] at located
              exact Or.inr ⟨op, List.mem_cons_self, candidate.1, candidate.2, rfl,
                Bool.not_eq_true _ ▸ noIndex, located⟩
      · exact later found

end Findings

/-! ## What is no definition -/

section Missed

variable {engine : ForwardSymbolicEngine} {funcEa : Nat} {arg : Option Int} {i : Instruction}
variable {s : AbstractState} {loc : Location} {p : Place}

/-- An instruction that is no definition of a place leaves it as it is, or makes it vague. -/
theorem kept_step (builtin : engine.registry = defaultRegistry) (flags : ExactFlags i)
    (plain : PlainViews engine.port i) (mirrors : Mirrors loc p) (whole : WholePlace engine.port p)
    (missed : placeFinding engine.port funcEa i p = none) :
    Kept arg (s.read loc) ((engine.step i s funcEa).read loc) := by
  rcases kept_stepTransfer builtin flags with kept | writes
  · exact kept.trans kept_invalidatePartialRegisterWrites
  · right
    cases mirrors with
    | reg q =>
        have operands : registerOperandFinding engine.port i q i.operands = none :=
          registerOperandFinding_of_missed missed
        generalize named : Location.reg (some q) = loc at writes
        cases writes with
        | @reg op member written reg =>
            have same : op.reg = some q := (Location.reg.inj named).symm
            rcases parent_ne_of_missed operands member reg written same with
              ⟨query, write, known, part, differs⟩
            rw [whole query known] at differs
            have keeps := (plain op member reg q same).1 write part differs
            rw [← named]
            exact vague_of_narrowWrite member reg written same part keeps (Or.inl rfl)
        | cell => cases named
    | cell k =>
        cases writes with
        | cell member written memory key =>
            have cell := cellOperand_of_stackKey key
            exact (memoryOperandFinding_ne_none member memory written cell.noIndex cell.location
              missed).elim

end Missed

/-! ## What the locators report -/

/-- The callbacks report for a place what the state has there, or where that is vague. -/
def Simulates (port : IdaPort) (funcEa : Nat) (arg : Option Int) (cb : Callbacks) (ea : Nat)
    (s : AbstractState) : Prop :=
  ∀ {loc : Location} {p : Place} {t : List (Event Resolver)} {v : ValueLattice}, Mirrors loc p →
    HonestTrace port t → AnswersPlace port funcEa cb ea t v p → Agrees arg (s.read loc) v

section Locators

variable {engine : ForwardSymbolicEngine} {self : BackwardResolver} {funcEa : Nat}
  {arg : Option Int}
variable {cb : Callbacks} {i : Instruction} {s : AbstractState} {t : List (Event Resolver)}
variable {v : ValueLattice} {fe : Option Nat} {n : Nat} {dst src : Operand}
variable {outcome : Option LocatorOutcome}

/-- A value that is passed on from a register. -/
theorem agrees_relay (sim : Simulates engine.port funcEa arg cb i.ea s)
    (honest : HonestTrace engine.port t) {r : Option Nat} (named : r.isSome)
    (run : Exec (Prog.interpret (self.answerCallback cb)
      (.call (.resolveRegister r i.ea) fun v => Extraction.resolved v)) t outcome) :
    Agrees arg (s.getRegister r) (verdict i outcome) := by
  rcases Option.isSome_iff_exists.mp named with ⟨q, rfl⟩
  rcases exec_relay (i := i) (f := fun v => v) run with ⟨t', sub, base, asked, same⟩
  rw [same]
  exact sim (.reg q) (honest.sub sub) asked

variable (h0 : i.operand 0 = some dst) (h1 : i.operand 1 = some src)
include h0 h1

theorem agrees_movRegReg (sim : Simulates engine.port funcEa arg cb i.ea s)
    (honest : HonestTrace engine.port t) (reg : src.kind = .reg)
    (run : Exec (Prog.interpret (self.answerCallback cb) (movRegReg.extract self.port fe i n)) t
      outcome) :
    Agrees arg ((applyLocator movRegReg i s).read (.reg dst.reg)) (verdict i outcome) := by
  rw [movRegReg_extract h1] at run
  rw [applyLocator_movRegReg h0 h1, read_setRegister, if_pos rfl]
  exact agrees_relay sim honest (src.reg_isSome reg) run

theorem agrees_movRegImm (run : Exec (Prog.interpret (self.answerCallback cb)
      (movRegImm.extract self.port fe i n)) t outcome) :
    Agrees arg ((applyLocator movRegImm i s).read (.reg dst.reg)) (verdict i outcome) := by
  rw [movRegImm_extract h1] at run
  rw [applyLocator_movRegImm h0 h1, read_setRegister, if_pos rfl, exec_resolved run]
  exact .refl

theorem agrees_leaRegAddr (run : Exec (Prog.interpret (self.answerCallback cb)
      (leaRegAddr.extract self.port fe i n)) t outcome) :
    Agrees arg ((applyLocator leaRegAddr i s).read (.reg dst.reg)) (verdict i outcome) := by
  rw [leaRegAddr_extract h1] at run
  rw [applyLocator_leaRegAddr h0 h1, read_setRegister, if_pos rfl, exec_resolved run]
  exact .refl

omit h1 in
theorem agrees_zeroIdiom (run : Exec (Prog.interpret (self.answerCallback cb)
      (zeroIdiom.extract self.port fe i n)) t outcome) :
    Agrees arg ((applyLocator zeroIdiom i s).read (.reg dst.reg)) (verdict i outcome) := by
  rw [applyLocator_zeroIdiom h0, read_setRegister, if_pos rfl, exec_resolved run]
  exact .refl

/-- Both operands of an exchange, by the number of the one that is asked for. -/
theorem agrees_xchgRegReg (sim : Simulates engine.port funcEa arg cb i.ea s)
    (honest : HonestTrace engine.port t) (left : dst.kind = .reg) (right : src.kind = .reg)
    {op : Operand} (asked : n = 0 ∧ op = dst ∨ n = 1 ∧ op = src)
    (run : Exec (Prog.interpret (self.answerCallback cb) (xchgRegReg.extract self.port fe i n)) t
      outcome) :
    Agrees arg ((applyLocator xchgRegReg i s).read (.reg op.reg)) (verdict i outcome) := by
  have relayed {other : Operand} (reg : other.kind = .reg)
      (known : (if n ≤ 1 then i.operand (1 - n) else none) = some other) :
      Agrees arg (s.getRegister other.reg) (verdict i outcome) := by
    rw [xchgRegReg_extract known reg] at run
    exact agrees_relay sim honest (other.reg_isSome reg) run
  rw [applyLocator_xchgRegReg h0 h1, read_setRegister]
  rcases asked with ⟨rfl, rfl⟩ | ⟨rfl, rfl⟩
  · have agrees := relayed right h1
    by_cases same : op.reg = src.reg
    · rw [if_pos (by rw [same]), same]
      exact agrees
    · rw [if_neg (by simpa using same), read_setRegister, if_pos rfl]
      exact agrees
  · rw [if_pos rfl]
    exact relayed left h0

theorem agrees_leaRegDispl (sim : Simulates engine.port funcEa arg cb i.ea s)
    (honest : HonestTrace engine.port t)
    (shape : (src.kind = .memDispl ∨ src.kind = .memPhrase) ∧ src.reg.isSome)
    (run : Exec (Prog.interpret (self.answerCallback cb) (leaRegDispl.extract self.port fe i n)) t
      outcome) :
    Agrees arg ((applyLocator leaRegDispl i s).read (.reg dst.reg)) (verdict i outcome) := by
  rw [leaRegDispl_extract h0 h1] at run
  rcases Option.isSome_iff_exists.mp shape.2 with ⟨q, named⟩
  rw [named] at run
  rcases exec_relay (i := i) (f := fun base => leaValue base src.disp dst.dtypeSize) run with
    ⟨t', sub, base, asked, same⟩
  rw [applyLocator_leaRegDispl h0 h1 shape, read_setRegister, if_pos rfl, same, named]
  exact (sim (.reg q) (honest.sub sub) asked).leaValue src.disp dst.dtypeSize

theorem agrees_addSubRegImm (sim : Simulates engine.port funcEa arg cb i.ea s)
    (honest : HonestTrace engine.port t) (reg : dst.kind = .reg) {delta : Int}
    (amount : addSubDelta i src = some delta)
    (run : Exec (Prog.interpret (self.answerCallback cb) (addSubRegImm.extract self.port fe i n)) t
      outcome) :
    Agrees arg ((applyLocator addSubRegImm i s).read (.reg dst.reg)) (verdict i outcome) := by
  rw [addSubRegImm_extract h0 h1 amount] at run
  rcases Operand.exists_reg reg with ⟨q, named⟩
  rw [named] at run
  rcases exec_relay (i := i) (f := fun prior => addSubValue prior delta dst.dtypeSize) run with
    ⟨t', sub, prior, asked, same⟩
  rw [applyLocator_addSubRegImm h0 h1 amount, read_setRegister, if_pos rfl, same, named]
  exact (sim (.reg q) (honest.sub sub) asked).addSub delta dst.dtypeSize

end Locators

/-! ## Moves from and to memory -/

section Memory

variable {engine : ForwardSymbolicEngine} {self : BackwardResolver} {funcEa : Nat}
  {arg : Option Int}
variable {cb : Callbacks} {i : Instruction} {s : AbstractState} {t : List (Event Resolver)}
variable {fe : Option Nat} {n : Nat} {dst src : Operand} {outcome : Option LocatorOutcome}
variable (h0 : i.operand 0 = some dst) (h1 : i.operand 1 = some src) (flags : ExactFlags i)
variable (move : i.mnem ∈ moveMnemonics)
include h0 flags move

/-- A move writes its first operand and no other. -/
theorem move_writes {op : Operand} (member : op ∈ i.operands) :
    i.isWritten op.number ↔ op = dst := by
  rw [flags.first (Or.inl (List.mem_append_left _ move)) op member, decide_eq_true_iff]
  constructor
  · exact eq_of_number flags.numbered member h0
  · intro same
    rw [same]
    exact Instruction.operand_number h0

include h1

theorem agrees_movRegMem (ports : self.port = engine.port)
    (sim : Simulates engine.port funcEa arg cb i.ea s) (honest : HonestTrace engine.port t)
    (reg : dst.kind = .reg) (memory : src.isMemory)
    (run : Exec (Prog.interpret (self.answerCallback cb) (movRegMem.extract self.port fe i n)) t
      outcome) :
    Agrees arg ((engine.transferByShape i s funcEa).read (.reg dst.reg))
      (verdict i outcome) := by
  have writes {op : Operand} (member : op ∈ i.operands) := move_writes h0 flags move member
  have source := Instruction.operand_mem h1
  have notStored : memoryOperand i true = none := by
    apply memoryOperand_eq_none
    intro op member shape written
    rw [(writes member).mp written, Operand.isMemory_of_reg reg] at shape
    cases shape
  have loaded : memoryOperand i false = some src := by
    apply memoryOperand_eq source memory
    · apply Bool.eq_false_iff.mpr
      intro written
      rw [(writes source).mp written, Operand.isMemory_of_reg reg] at memory
      cases memory
    · intro op member shape _
      exact flags.oneMemory move op member src source shape memory
  have destination : registerDestination i = some dst := by
    cases found : registerDestination i with
    | none =>
        have absent := List.find?_eq_none.mp found dst (Instruction.operand_mem h0)
        simp [reg, (writes (Instruction.operand_mem h0)).mpr rfl] at absent
    | some other =>
        have shape := List.find?_some found
        simp only [decide_eq_true_eq] at shape
        rw [(writes (List.mem_of_find?_eq_some found)).mp shape.2]
  rw [transferByShape, notStored, loaded]
  dsimp only
  rw [applyMemoryLoad, destination]
  dsimp only
  split
  · cases key : engine.stackKey src i.ea funcEa with
    | none =>
        dsimp only
        rw [read_invalidateRegister, if_pos rfl]
        exact (vague_unknown _ _).agrees
    | some k =>
        rw [movRegMem_extract h1] at run
        have cell := cellOperand_of_stackKey key
        rw [← ports] at cell
        rcases exec_loadMemoryOperand cell run with
          ⟨base, disp, size, location, t', sub, r, asked, same⟩
        rw [ports] at location
        dsimp only
        rw [read_setRegister, if_pos rfl, same]
        exact sim (.cell k) (honest.sub sub) ⟨base, disp, size, location, asked⟩
  · rw [read_invalidateRegister, if_pos rfl]
    exact (vague_unknown _ _).agrees

/-- A move to a cell leaves its source there, or something vague. -/
theorem transferByShape_store {k : StackKey} (memory : dst.isMemory)
    (key : engine.stackKey dst i.ea funcEa = some k) :
    Kept arg (valueOfSource (some src) s)
      ((engine.transferByShape i s funcEa).read (.cell k)) := by
  have stored : memoryOperand i true = some dst := by
    have written := (move_writes h0 flags move (Instruction.operand_mem h0)).mpr rfl
    apply memoryOperand_eq (Instruction.operand_mem h0) memory written
    intro op member _ writes
    exact (move_writes h0 flags move member).mp writes
  rw [transferByShape, stored]
  dsimp only
  rw [applyMemoryStore, key]
  dsimp only
  split
  · rw [read_setStack, if_pos rfl, otherOperand_eq flags.numbered h0 h1]
    exact .refl
  · rw [read_setStack, if_pos rfl]
    exact Or.inr (vague_unknown _ _)

omit h0 flags move in
theorem agrees_movMemImm (imm : src.kind = .immediate)
    (run : Exec (Prog.interpret (self.answerCallback cb) (movMemImm.extract self.port fe i n)) t
      outcome) : Agrees arg (valueOfSource (some src) s) (verdict i outcome) := by
  rw [movMemImm_extract h1] at run
  rw [valueOfSource, if_neg (by simp [imm]), if_pos imm, exec_resolved run]
  exact .refl

omit h0 flags move in
theorem agrees_movMemReg (sim : Simulates engine.port funcEa arg cb i.ea s)
    (honest : HonestTrace engine.port t) (reg : src.kind = .reg)
    (run : Exec (Prog.interpret (self.answerCallback cb) (movMemReg.extract self.port fe i n)) t
      outcome) : Agrees arg (valueOfSource (some src) s) (verdict i outcome) := by
  rw [movMemReg_extract h1] at run
  rw [valueOfSource, if_pos reg]
  exact agrees_relay sim honest (src.reg_isSome reg) run

end Memory

/-! ## One step -/

section Steps

variable {engine : ForwardSymbolicEngine} {self : BackwardResolver} {funcEa : Nat}
  {arg : Option Int}
variable {cb : Callbacks} {i : Instruction} {s : AbstractState} {t : List (Event Resolver)}
variable {v : ValueLattice} {fe : Option Nat} {n : Nat} {op : Operand}

/-- A written operand of a mnemonic that writes its first operand is that operand. -/
theorem written_pair (flags : ExactFlags i) (member : op ∈ i.operands)
    (written : i.isWritten op.number) {mnems : List String} {shape : Operand → Operand → Bool}
    (accepted : acceptsPair mnems shape i = some true)
    (known : ∀ m ∈ mnems, m ∈ moveMnemonics ++ ["lea", "add", "sub", "xor"]) :
    i.mnem ∈ mnems ∧
      ∃ src, i.operand 0 = some op ∧ i.operand 1 = some src ∧ shape op src = true := by
  rcases acceptsPair_eq_true.mp accepted with ⟨mnem, dst, src, h0, h1, shaped⟩
  rw [flags.first (Or.inl (known _ mnem)) op member, decide_eq_true_iff] at written
  have same := eq_of_number flags.numbered member h0 written
  subst same
  exact ⟨mnem, src, h0, h1, shaped⟩

variable (forward : engine.registry = defaultRegistry) (backward : self.registry = defaultRegistry)
include forward backward

/-- What is interpreted is unknown, or is extracted by the built-in locator that the forward
engine matches too. -/
theorem interpreted (run : Exec (self.interpretDefinition cb i n fe) t v) :
    v.isKnown = false ∨ ∃ l ∈ builtins, engine.registry.findMatch i = some l ∧
      l.accepts i = some true ∧ ∃ t' ⊆ t, ∃ outcome, Exec (Prog.interpret (self.answerCallback cb)
        (l.extract self.port fe i n)) t' outcome ∧ v = verdict i outcome := by
  have registries : engine.registry = self.registry := forward.trans backward.symm
  cases matched : engine.registry.findMatch i with
  | none =>
      left
      rw [registries] at matched
      exact exec_interpretDefinition_unmatched matched run
  | some l =>
      right
      have member := LocatorRegistry.findMatch_mem matched
      rw [forward, defaultRegistry_all] at member
      refine ⟨l, member, rfl, LocatorRegistry.findMatch_accepts matched, ?_⟩
      rw [registries] at matched
      exact exec_interpretDefinition matched run

variable (ports : self.port = engine.port) (flags : ExactFlags i)
include ports flags

/-- A register operand that is interpreted holds what is reported. -/
theorem agrees_register (sim : Simulates engine.port funcEa arg cb i.ea s)
    (honest : HonestTrace engine.port t) (notCall : i.isCall = false) (member : op ∈ i.operands)
    (reg : op.kind = .reg) (written : i.isWritten op.number)
    (run : Exec (self.interpretDefinition cb i op.number fe) t v) :
    Agrees arg ((engine.stepTransfer i s funcEa).read (.reg op.reg)) v := by
  rcases interpreted forward backward run with
    unknown | ⟨l, inside, matched, accepted, t', sub, outcome, extracted, rfl⟩
  · exact .of_unknown unknown
  · have honest' := honest.sub sub
    have pair {mnems : List String} {shape : Operand → Operand → Bool}
        (holds : acceptsPair mnems shape i = some true)
        (known : ∀ m ∈ mnems, m ∈ moveMnemonics ++ ["lea", "add", "sub", "xor"]) :=
      written_pair flags member written holds known
    simp only [builtins, List.mem_cons, List.not_mem_nil, or_false] at inside
    rcases inside with
      rfl | rfl | rfl | rfl | rfl | rfl | rfl | rfl | rfl | rfl | rfl | rfl | rfl
    · rcases pair accepted (by decide) with ⟨_, src, h0, h1, shape⟩
      rw [stepTransfer_forward notCall matched rfl]
      exact agrees_zeroIdiom h0 extracted
    · rcases pair accepted (by decide) with ⟨_, src, h0, h1, shape⟩
      simp only [decide_eq_true_eq] at shape
      rw [stepTransfer_forward notCall matched rfl]
      exact agrees_movRegReg h0 h1 sim honest' shape.2 extracted
    · rcases pair accepted (by decide) with ⟨_, src, h0, h1, shape⟩
      rw [stepTransfer_forward notCall matched rfl]
      exact agrees_movRegImm h0 h1 extracted
    · rcases pair accepted (by decide) with ⟨_, src, h0, h1, shape⟩
      rw [stepTransfer_forward notCall matched rfl]
      exact agrees_leaRegAddr h0 h1 extracted
    · rcases acceptsPair_eq_true.mp accepted with ⟨mnem, a, b, h0, h1, shape⟩
      simp only [decide_eq_true_eq] at shape
      rw [flags.both (List.mem_singleton.mp mnem) op member, decide_eq_true_iff] at written
      rw [stepTransfer_forward notCall matched rfl]
      apply agrees_xchgRegReg h0 h1 sim honest' shape.1 shape.2 _ extracted
      rcases Nat.le_one_iff_eq_zero_or_eq_one.mp written with zero | one
      · exact Or.inl ⟨zero, eq_of_number flags.numbered member h0 zero⟩
      · exact Or.inr ⟨one, eq_of_number flags.numbered member h1 one⟩
    · rw [exec_resolved extracted]
      exact .of_unknown rfl
    · rcases pair accepted (by decide) with ⟨_, src, h0, h1, shape⟩
      simp only [decide_eq_true_eq] at shape
      rw [Operand.isMemory_of_reg reg] at shape
      cases shape.1
    · rcases pair accepted (by decide) with ⟨mnem, src, h0, h1, shape⟩
      simp only [decide_eq_true_eq] at shape
      rw [stepTransfer_shape notCall matched rfl]
      exact agrees_movRegMem h0 h1 flags mnem ports sim honest' reg shape.2 extracted
    · simp only [pushLocator, Option.some.injEq, decide_eq_true_eq] at accepted
      rw [flags.push accepted.1 op member] at written
      cases written
    · rcases pair accepted (by decide) with ⟨_, src, h0, h1, shape⟩
      simp only [decide_eq_true_eq] at shape
      rw [Operand.isMemory_of_reg reg] at shape
      cases shape.1
    · simp only [callReturn, Option.some.injEq] at accepted
      rw [notCall] at accepted
      cases accepted
    · rcases pair accepted (by decide) with ⟨_, src, h0, h1, shape⟩
      simp only [decide_eq_true_eq] at shape
      rw [stepTransfer_forward notCall matched rfl]
      exact agrees_leaRegDispl h0 h1 sim honest' ⟨shape.2.1, shape.2.2.1⟩ extracted
    · rcases pair accepted (by decide) with ⟨_, src, h0, h1, shape⟩
      simp only [decide_eq_true_eq] at shape
      rcases Operand.exists_imm shape.2 with ⟨n, imm⟩
      have amount : addSubDelta i src = some (if i.mnem = "add" then n else -n) := by
        rw [addSubDelta, imm, Option.map_some]
      rw [stepTransfer_forward notCall matched rfl]
      exact agrees_addSubRegImm h0 h1 sim honest' reg amount extracted

omit ports in
/-- A cell that is interpreted holds what is reported. -/
theorem agrees_cell (sim : Simulates engine.port funcEa arg cb i.ea s)
    (honest : HonestTrace engine.port t) (notCall : i.isCall = false) (member : op ∈ i.operands)
    (memory : op.isMemory) (written : i.isWritten op.number) {k : StackKey}
    (key : engine.stackKey op i.ea funcEa = some k)
    (run : Exec (self.interpretDefinition cb i op.number fe) t v) :
    Agrees arg ((engine.stepTransfer i s funcEa).read (.cell k)) v := by
  rcases interpreted forward backward run with
    unknown | ⟨l, inside, matched, accepted, t', sub, outcome, extracted, rfl⟩
  · exact .of_unknown unknown
  · have honest' := honest.sub sub
    have notReg := Operand.kind_ne_reg_of_isMemory memory
    have pair {mnems : List String} {shape : Operand → Operand → Bool}
        (holds : acceptsPair mnems shape i = some true)
        (known : ∀ m ∈ mnems, m ∈ moveMnemonics ++ ["lea", "add", "sub", "xor"]) :=
      written_pair flags member written holds known
    -- most locators ask for a register there
    have excluded {mnems : List String} {shape : Operand → Operand → Bool}
        (holds : acceptsPair mnems shape i = some true)
        (known : ∀ m ∈ mnems, m ∈ moveMnemonics ++ ["lea", "add", "sub", "xor"])
        (reg : ∀ dst src, shape dst src = true → dst.kind = .reg) : False := by
      rcases pair holds known with ⟨_, src, _, _, shaped⟩
      exact notReg (reg op src shaped)
    have mov (mnem : i.mnem ∈ ["mov"]) : i.mnem ∈ moveMnemonics :=
      List.mem_cons.mpr (Or.inl (List.mem_singleton.mp mnem))
    simp only [builtins, List.mem_cons, List.not_mem_nil, or_false] at inside
    rcases inside with
      rfl | rfl | rfl | rfl | rfl | rfl | rfl | rfl | rfl | rfl | rfl | rfl | rfl
    · exact (excluded accepted (by decide) fun _ _ shaped => (of_decide_eq_true shaped).1).elim
    · exact (excluded accepted (by decide) fun _ _ shaped => (of_decide_eq_true shaped).1).elim
    · exact (excluded accepted (by decide) fun _ _ shaped => (of_decide_eq_true shaped).1).elim
    · exact (excluded accepted (by decide) fun _ _ shaped => (of_decide_eq_true shaped).1).elim
    · rcases acceptsPair_eq_true.mp accepted with ⟨mnem, a, b, h0, h1, shape⟩
      simp only [decide_eq_true_eq] at shape
      rw [flags.both (List.mem_singleton.mp mnem) op member, decide_eq_true_iff] at written
      rcases Nat.le_one_iff_eq_zero_or_eq_one.mp written with zero | one
      · have same := eq_of_number flags.numbered member h0 zero
        exact (notReg (same ▸ shape.1)).elim
      · have same := eq_of_number flags.numbered member h1 one
        exact (notReg (same ▸ shape.2)).elim
    · rw [exec_resolved extracted]
      exact .of_unknown rfl
    · rcases pair accepted (by decide) with ⟨mnem, src, h0, h1, shape⟩
      simp only [decide_eq_true_eq] at shape
      rw [stepTransfer_shape notCall matched rfl]
      exact (agrees_movMemImm h1 shape.2 extracted).keep
        (transferByShape_store h0 h1 flags (mov mnem) memory key)
    · exact (excluded accepted (by decide) fun _ _ shaped => (of_decide_eq_true shaped).1).elim
    · simp only [pushLocator, Option.some.injEq, decide_eq_true_eq] at accepted
      rw [flags.push accepted.1 op member] at written
      cases written
    · rcases pair accepted (by decide) with ⟨mnem, src, h0, h1, shape⟩
      simp only [decide_eq_true_eq] at shape
      rw [stepTransfer_shape notCall matched rfl]
      exact (agrees_movMemReg h1 sim honest' shape.2 extracted).keep
        (transferByShape_store h0 h1 flags (mov mnem) memory key)
    · simp only [callReturn, Option.some.injEq] at accepted
      rw [notCall] at accepted
      cases accepted
    · exact (excluded accepted (by decide) fun _ _ shaped => (of_decide_eq_true shaped).1).elim
    · exact (excluded accepted (by decide) fun _ _ shaped => (of_decide_eq_true shaped).1).elim

/-- The value reported for a definition of a place is what the step leaves there, or that
is vague. -/
theorem agrees_step (plain : PlainViews engine.port i)
    (sim : Simulates engine.port funcEa arg cb i.ea s) (honest : HonestTrace engine.port t)
    {loc : Location} {p : Place} (mirrors : Mirrors loc p) (whole : WholePlace engine.port p)
    {f : Finding} (found : placeFinding engine.port funcEa i p = some f)
    (run : Exec (self.settle cb i funcEa f) t v) :
    Agrees arg ((engine.step i s funcEa).read loc) v := by
  cases f with
  | report value =>
      rcases exec_pure.mp run with ⟨_, rfl⟩
      exact .of_unknown (placeFinding_report found)
  | interpret n =>
      cases notCall : i.isCall with
      | true => exact .of_silent (silent_call backward notCall run)
      | false =>
          cases mirrors with
          | reg q =>
              have operands := found
              rw [placeFinding, registerFinding_of_notCall notCall] at operands
              rcases operand_of_registerFinding operands with
                ⟨value, same⟩ | ⟨op, member, reg, written, same, named⟩
              · cases same
              · cases same
                have agrees := agrees_register forward backward ports flags sim honest notCall
                  member reg written run
                rcases Operand.exists_reg reg with ⟨q', own⟩
                by_cases other : q' = q
                · rw [own, other] at agrees
                  exact agrees.keep kept_invalidatePartialRegisterWrites
                · rcases named with here | ⟨query, write, known, part, parent⟩
                  · rw [own] at here
                    exact (other (Option.some.inj here)).elim
                  · -- the operand names a part of the register
                    rw [whole query known] at parent
                    rw [own, Option.bind_some] at part
                    have keeps := (plain op member reg q' own).1 write part
                      (fun same => other (same.symm.trans parent))
                    exact (vague_of_narrowWrite member reg written own part keeps
                      (Or.inr parent.symm)).agrees
          | cell k =>
              rcases operand_of_memoryFinding found with
                ⟨value, same⟩ | ⟨op, member, memory, written, same, noIndex, located⟩
              · cases same
              · cases same
                have key := stackKey_of_location memory noIndex located
                have agrees := agrees_cell forward backward flags sim honest notCall member memory
                  written key run
                exact agrees.keep kept_invalidatePartialRegisterWrites

end Steps

end IDAnalysister
