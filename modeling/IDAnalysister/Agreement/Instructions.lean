import IDAnalysister.Backward.Soundness
import IDAnalysister.Forward.Simulation

/-!
# One instruction in both engines

What the forward engine does to a location, next to what the backward resolver takes
the same instruction for: an instruction that the resolver does not recognise as a
definition of a location leaves it alone or makes it vague, and the value the resolver
reports for a definition is the one the forward engine leaves there, or that is vague.
-/

namespace IDAnalysister

open Effect Prog AbstractState

/-! ## What is assumed of an instruction -/

/-- The number names a whole register, or one without a layout. -/
def IdaPort.Whole (port : IdaPort) (q : Nat) : Prop :=
  ∀ view, port.registerView q 0 = some view → view.parent = q

/-- A register operand that names a view of another register does not define that one. A
number that names such a view by itself does so at the operand's size. -/
def PlainViews (port : IdaPort) (i : Instruction) : Prop :=
  ∀ op ∈ i.operands, op.kind = .reg → ∀ q, op.reg = some q →
    (∀ view, port.registerView q op.dtypeSize = some view → view.parent ≠ q →
      view.writeDefinesParent = false) ∧
    (¬ port.Whole q → ∃ view, port.registerView q op.dtypeSize = some view ∧ view.parent ≠ q)

/-- Operands are numbered in order, and for the mnemonics that locators read the flags say
what the instruction writes: its first operand, for an exchange the first two, and for a
push none. A move has one memory operand at most. -/
structure ExactFlags (i : Instruction) : Prop where
  numbered : i.operands.Pairwise (·.number < ·.number)
  first : i.mnem ∈ moveMnemonics ++ ["lea", "add", "sub", "xor"] ∨ startsWith i.mnem "cmov" →
    ∀ op ∈ i.operands, i.isWritten op.number = decide (op.number = 0)
  both : i.mnem = "xchg" → ∀ op ∈ i.operands, i.isWritten op.number = decide (op.number ≤ 1)
  push : i.mnem = "push" → ∀ op ∈ i.operands, i.isWritten op.number = false
  oneMemory : i.mnem ∈ moveMnemonics → ∀ a ∈ i.operands, ∀ b ∈ i.operands,
    a.isMemory → b.isMemory → a = b

/-! ## Agreeing values -/

/-- Neither a concrete value nor the seeded argument, if one is tracked. -/
structure Vague (arg : Option Int) (x : ValueLattice) : Prop where
  notConcrete : ∀ d k, x ≠ .concrete d k
  notArgument : ∀ n, arg = some n → x ≠ .symbolic ("arg" ++ toString n)

/-- Where the resolver reports the concrete value `v`, the forward engine has it too, or
something vague. -/
def Agrees (arg : Option Int) (x v : ValueLattice) : Prop :=
  ∀ d k, v = .concrete d k → x = v ∨ Vague arg x

/-- The value stays as it is, or becomes vague. -/
def Kept (arg : Option Int) (x x' : ValueLattice) : Prop := x' = x ∨ Vague arg x'

section Values

variable {arg : Option Int} {x x' x'' v : ValueLattice}

/-- Unknown values are vague. -/
theorem vague_unknown (reason : UnknownReason) (detail : String) :
    Vague arg (.unknown reason detail) := by
  constructor
  · intro d k same
    cases same
  · intro n _ same
    cases same

/-- The symbol of a call is no argument. -/
theorem vague_return (ea : Nat) : Vague arg (.symbolic ("ret(" ++ hex ea ++ ")")) := by
  constructor
  · intro d k same
    cases same
  · intro n _ same
    have texts := congrArg String.toList (ValueLattice.symbolic.inj same)
    simp [String.toList_append] at texts

/-- Everything agrees with a value that is not concrete. -/
theorem Agrees.of_silent (silent : ∀ d k, v ≠ .concrete d k) : Agrees arg x v :=
  fun d k same => (silent d k same).elim

/-- Everything agrees with an unknown value. -/
theorem Agrees.of_unknown (unknown : v.isKnown = false) : Agrees arg x v := by
  apply Agrees.of_silent
  intro d k same
  subst same
  cases unknown

theorem Agrees.refl : Agrees arg v v := fun _ _ _ => Or.inl rfl

/-- A vague value agrees with everything. -/
theorem Vague.agrees (vague : Vague arg x) : Agrees arg x v := fun _ _ _ => Or.inr vague

theorem Kept.refl : Kept arg x x := Or.inl rfl

theorem Kept.trans (left : Kept arg x x') (right : Kept arg x' x'') :
    Kept arg x x'' := by
  rcases right with same | vague
  · rw [same]
    exact left
  · exact Or.inr vague

/-- What was vague stays so. -/
theorem Vague.keep (vague : Vague arg x) (kept : Kept arg x x') : Vague arg x' := by
  rcases kept with same | later
  · rw [same]
    exact vague
  · exact later

/-- What stays or becomes vague still agrees. -/
theorem Agrees.keep (agrees : Agrees arg x v) (kept : Kept arg x x') :
    Agrees arg x' v := by
  rcases kept with same | vague
  · rw [same]
    exact agrees
  · exact vague.agrees

/-- A vague value has no number. -/
theorem Vague.intOf (vague : Vague arg x) : x.intOf = none := by
  cases known : x.intOf with
  | none => rfl
  | some n =>
      rcases ValueLattice.intOf_eq_some known with ⟨k, same⟩
      exact (vague.notConcrete _ k same).elim

/-- Arithmetic on a vague value leaves it vague. -/
theorem Vague.arith (vague : Vague arg x) (reason : UnknownReason) :
    Vague arg (if x.isKnown then .unknown' reason else x) := by
  split
  · exact vague_unknown _ _
  · exact vague

/-- An address from a vague base is vague. -/
theorem Vague.leaValue (vague : Vague arg x) (disp : Int) (size : Nat) :
    Vague arg (leaValue x disp size) := by
  rw [IDAnalysister.leaValue, vague.intOf]
  exact vague.arith _

/-- A sum with a vague number is vague. -/
theorem Vague.forwardAddSub (vague : Vague arg x) (delta : Int) (size : Nat) :
    Vague arg (ForwardSymbolicEngine.forwardAddSub x delta size) := by
  rw [ForwardSymbolicEngine.forwardAddSub, vague.intOf]
  exact vague.arith _

/-- Bases that agree give addresses that agree. -/
theorem Agrees.leaValue (agrees : Agrees arg x v) (disp : Int) (size : Nat) :
    Agrees arg (leaValue x disp size) (leaValue v disp size) := by
  intro d k value
  cases known : v.intOf with
  | none =>
      rw [IDAnalysister.leaValue, known] at value
      dsimp only at value
      split at value
      · cases value
      · rename_i unknown
        rw [value] at unknown
        exact (unknown rfl).elim
  | some n =>
      rcases ValueLattice.intOf_eq_some known with ⟨kind, same⟩
      rcases agrees _ kind same with equal | vague
      · exact Or.inl (by rw [equal])
      · exact Or.inr (vague.leaValue disp size)

/-- `add`/`sub` agrees, though only the resolver passes a known value on that is no
integer. -/
theorem Agrees.addSub (agrees : Agrees arg x v) (delta : Int) (size : Nat) :
    Agrees arg (ForwardSymbolicEngine.forwardAddSub x delta size)
      (addSubValue v delta size) := by
  intro d k value
  have concrete : ∃ d' k', v = .concrete d' k' := by
    unfold addSubValue at value
    split at value
    · exact ⟨d, k, value⟩
    · rename_i n known
      rcases ValueLattice.intOf_eq_some known with ⟨kind, same⟩
      exact ⟨_, kind, same⟩
  rcases concrete with ⟨d', k', same⟩
  rcases agrees d' k' same with equal | vague
  · rw [equal, same]
    unfold ForwardSymbolicEngine.forwardAddSub addSubValue
    cases (ValueLattice.concrete d' k').intOf with
    | none => exact Or.inr (vague_unknown _ _)
    | some n => exact Or.inl rfl
  · exact Or.inr (vague.forwardAddSub delta size)

end Values

/-! ## Places of both engines -/

/-- The name that the resolver has for a tracked cell. -/
def StackKey.location : StackKey → MemoryKey
  | .sp offset => (.sp, offset)
  | .fp offset => (.fp, offset)

/-- The location of the forward engine and the place of the resolver are the same. -/
inductive Mirrors : Location → Place → Prop
  | reg (q : Nat) : Mirrors (.reg (some q)) (.reg q)
  | cell (k : StackKey) : Mirrors (.cell k) (.cell k.location)

/-- A whole register, or a cell. -/
def WholePlace (port : IdaPort) : Place → Prop
  | .reg q => port.Whole q
  | .cell _ => True

section Cells

variable {engine : ForwardSymbolicEngine} {funcEa ea : Nat} {op : Operand} {k : StackKey}

theorem memoryLocation_eq {port : IdaPort} {base : Nat} {disp : Int} :
    memoryLocation port (some base) disp ea funcEa = k.location ↔
      (if port.stackPointerReg = some base then
        (port.getSpDelta funcEa ea).map fun delta => StackKey.sp (delta + disp)
      else if port.framePointerReg = some base then some (.fp disp) else none) = some k := by
  unfold memoryLocation
  dsimp only
  split
  · cases port.getSpDelta funcEa ea with
    | none => cases k <;> simp [StackKey.location]
    | some delta => cases k <;> simp [StackKey.location]
  · split
    · cases k <;> simp [StackKey.location]
    · cases k <;> simp [StackKey.location]

/-- An operand that the forward engine has a cell for names it to the resolver too. -/
theorem cellOperand_of_stackKey (known : engine.stackKey op ea funcEa = some k) :
    CellOperand engine.port funcEa ea op k.location := by
  unfold ForwardSymbolicEngine.stackKey at known
  split at known
  · rename_i shape
    cases base : op.reg with
    | none =>
        rw [base] at known
        cases known
    | some r =>
        rw [base] at known
        dsimp only at known
        split at known
        · cases known
        · rename_i plain
          rw [not_or, Bool.not_eq_true, Bool.not_eq_true] at plain
          have notDirect : op.kind ≠ .memDirect := by
            rcases shape with kind | kind <;> simp [kind]
          constructor
          · rcases shape with kind | kind <;> simp [Operand.isMemory, kind]
          · exact plain.1
          · exact plain.2
          · rw [operandLocation, plain.2, dif_neg notDirect, base]
            exact congrArg some (memoryLocation_eq.mpr known)
          · cases k
            · exact Or.inr (Or.inl rfl)
            · exact Or.inr (Or.inr rfl)
  · cases known

/-- An operand that names a tracked cell to the resolver has a key. -/
theorem stackKey_of_location (memory : op.isMemory) (noIndex : op.hasIndex = false)
    (located : operandLocation engine.port op ea funcEa = some k.location) :
    engine.stackKey op ea funcEa = some k := by
  unfold operandLocation at located
  cases segment : op.hasSegment with
  | true =>
      -- a segment is part of the name
      rw [segment, if_pos rfl] at located
      rcases Option.map_eq_some_iff.mp located with ⟨inner, _, same⟩
      cases k <;> cases same
  | false =>
      rw [segment, if_neg Bool.false_ne_true] at located
      by_cases direct : op.kind = .memDirect
      · rw [dif_pos direct] at located
        cases k <;> cases located
      · rw [dif_neg direct] at located
        rcases Option.map_eq_some_iff.mp located with ⟨base, known, same⟩
        have shape : op.kind = .memDispl ∨ op.kind = .memPhrase := by
          simpa [Operand.isMemory, direct, or_comm] using memory
        rw [ForwardSymbolicEngine.stackKey, if_pos shape, known, noIndex, segment]
        exact memoryLocation_eq.mp same

end Cells

/-! ## Operands -/

section Operands

variable {i : Instruction} {op a : Operand} {n : Nat}

/-- Operands in order have numbers of their own. -/
theorem eq_of_number (numbered : i.operands.Pairwise (·.number < ·.number))
    (member : op ∈ i.operands) (known : i.operand n = some a) (same : op.number = n) : op = a := by
  have distinct : (i.operands.map (·.number)).Nodup :=
    List.pairwise_map.mpr (numbered.imp fun below => below.ne)
  apply List.inj_on_of_nodup_map distinct member (Instruction.operand_mem known)
  rw [same, Instruction.operand_number known]

/-- The other operand of a store is the one behind its destination. -/
theorem otherOperand_eq {dst src : Operand} (numbered : i.operands.Pairwise (·.number < ·.number))
    (h0 : i.operand 0 = some dst) (h1 : i.operand 1 = some src) :
    ForwardSymbolicEngine.otherOperand i dst = some src := by
  have zero := Instruction.operand_number h0
  have one := Instruction.operand_number h1
  cases found : ForwardSymbolicEngine.otherOperand i dst with
  | none =>
      have absent := List.find?_eq_none.mp found src (Instruction.operand_mem h1)
      simp [zero, one] at absent
  | some other =>
      rcases List.find?_eq_some_iff_append.mp found with ⟨differs, early, late, split, skipped⟩
      have member : src ∈ early ++ other :: late := split ▸ Instruction.operand_mem h1
      rcases List.mem_append.mp member with before | here
      · have refused := skipped src before
        simp [zero, one] at refused
      · rcases List.mem_cons.mp here with rfl | behind
        · rfl
        · rw [split] at numbered
          have below := (List.pairwise_cons.mp (List.pairwise_append.mp numbered).2.1).1 src behind
          simp only [zero, decide_eq_true_eq] at differs
          omega

/-- The memory operand that the engine reads or writes, when there is only one. -/
theorem memoryOperand_eq {written : Bool} (member : op ∈ i.operands) (memory : op.isMemory)
    (flag : i.isWritten op.number = written) (only : ∀ op' ∈ i.operands, op'.isMemory →
      i.isWritten op'.number = written → op' = op) :
    ForwardSymbolicEngine.memoryOperand i written = some op := by
  cases found : ForwardSymbolicEngine.memoryOperand i written with
  | none =>
      have listed : op ∈ i.operands.filter
          fun op => op.isMemory ∧ i.isWritten op.number = written := by
        simp [member, memory, flag]
      rw [List.getLast?_eq_none_iff.mp found] at listed
      cases listed
  | some last =>
      have listed := List.mem_of_getLast? found
      simp only [List.mem_filter, decide_eq_true_eq] at listed
      rw [only last listed.1 listed.2.1 listed.2.2]

theorem memoryOperand_eq_none {written : Bool} (none' : ∀ op ∈ i.operands, op.isMemory →
    i.isWritten op.number ≠ written) : ForwardSymbolicEngine.memoryOperand i written = none := by
  apply List.getLast?_eq_none_iff.mpr
  apply List.filter_eq_nil_iff.mpr
  intro op member
  simp only [decide_eq_true_eq]
  intro both
  exact none' op member both.1 both.2

end Operands

/-! ## What a step can change -/

namespace ForwardSymbolicEngine

variable {engine : ForwardSymbolicEngine} {funcEa : Nat} {arg : Option Int} {i : Instruction}
variable {s : AbstractState} {loc : Location}

/-- The instruction writes an operand that names the location. -/
inductive Writes (engine : ForwardSymbolicEngine) (funcEa : Nat) (i : Instruction) :
    Location → Prop
  | reg {op : Operand} : op ∈ i.operands → i.isWritten op.number → op.kind = .reg →
    Writes engine funcEa i (.reg op.reg)
  | cell {op : Operand} {k : StackKey} : op ∈ i.operands → i.isWritten op.number → op.isMemory →
    engine.stackKey op i.ea funcEa = some k → Writes engine funcEa i (.cell k)

theorem kept_setRegister {r : Option Nat} {v : ValueLattice} (vague : Vague arg v) :
    Kept arg (s.read loc) ((s.setRegister r v).read loc) := by
  rw [read_setRegister]
  split
  · exact Or.inr vague
  · exact .refl

theorem kept_foldl {α : Type} {h : AbstractState → α → AbstractState} {xs : List α}
    (each : ∀ x ∈ xs, ∀ s, Kept arg (s.read loc) ((h s x).read loc)) (s : AbstractState) :
    Kept arg (s.read loc) ((xs.foldl h s).read loc) := by
  induction xs generalizing s with
  | nil => exact .refl
  | cons x xs ih =>
      have rest := ih (fun y member => each y (by simp [member])) (h s x)
      exact (each x (by simp) s).trans rest

theorem kept_invalidateWritten :
    Kept arg (s.read loc) ((invalidateWrittenRegisters i s).read loc) := by
  apply kept_foldl
  intro op _ s
  split
  · exact kept_setRegister (vague_unknown _ _)
  · exact .refl

theorem kept_invalidatePartial (op : Operand) :
    Kept arg (s.read loc) ((engine.invalidatePartial i s op).read loc) := by
  unfold invalidatePartial
  split
  · split
    · exact .refl
    · split
      · exact .refl
      · dsimp only
        split
        · exact (kept_setRegister (vague_unknown _ _)).trans (kept_setRegister (vague_unknown _ _))
        · exact kept_setRegister (vague_unknown _ _)
  · exact .refl

theorem kept_invalidatePartialRegisterWrites :
    Kept arg (s.read loc) ((engine.invalidatePartialRegisterWrites i s).read loc) :=
  kept_foldl (fun op _ _ => kept_invalidatePartial op) s

theorem kept_applyCall : Kept arg (s.read loc) ((engine.applyCall i s).read loc) := by
  have clobbered : Kept arg (s.read loc) ((engine.port.callClobberedRegisters.foldl
      (fun s reg => s.invalidateRegister (some reg) .indirectControlFlow) s).read loc) :=
    kept_foldl (fun _ _ _ => kept_setRegister (vague_unknown _ _)) s
  unfold applyCall
  cases engine.port.returnValueReg with
  | none => exact clobbered
  | some reg => exact clobbered.trans (kept_setRegister (vague_return _))

/-- A partial write leaves both its register and the register it is a part of vague. -/
theorem vague_of_narrowWrite {op : Operand} {q : Nat} {view : RegisterView}
    (member : op ∈ i.operands)
    (reg : op.kind = .reg) (written : i.isWritten op.number) (named : op.reg = some q)
    (known : engine.port.registerView q op.dtypeSize = some view)
    (keeps : view.writeDefinesParent = false) {r : Nat} (part : r = q ∨ r = view.parent) :
    Vague arg ((engine.invalidatePartialRegisterWrites i s).read (.reg (some r))) := by
  rcases List.append_of_mem member with ⟨early, late, split⟩
  rw [invalidatePartialRegisterWrites, split, List.foldl_append, List.foldl_cons]
  apply Vague.keep _ (kept_foldl (fun op _ _ => kept_invalidatePartial op) _)
  rw [invalidatePartial, if_pos ⟨reg, written⟩, named, Option.bind_some, known]
  dsimp only
  rw [keeps, if_neg Bool.false_ne_true]
  by_cases own : q = view.parent
  · have same : r = view.parent := by
      rcases part with rfl | same
      · exact own
      · exact same
    rw [if_neg (by simp [own]), read_invalidateRegister, if_pos (by rw [same])]
    exact vague_unknown _ _
  · rw [if_pos (by simpa using own), read_invalidateRegister]
    by_cases here : r = q
    · rw [if_pos (by rw [here])]
      exact vague_unknown _ _
    · rw [if_neg (by simpa using here), read_invalidateRegister,
        if_pos (by rw [part.resolve_left here])]
      exact vague_unknown _ _

/-- A store leaves a location as it is, or vague, or writes it. -/
theorem kept_applyMemoryStore {dst : Operand} (member : dst ∈ i.operands)
    (written : i.isWritten dst.number) (memory : dst.isMemory) :
    Kept arg (s.read loc) ((engine.applyMemoryStore i dst s funcEa).read loc) ∨
      Writes engine funcEa i loc := by
  unfold applyMemoryStore
  cases key : engine.stackKey dst i.ea funcEa with
  | none =>
      left
      unfold invalidatePossiblyAliasedStack
      dsimp only
      split
      · cases loc with
        | reg r => exact .refl
        | cell k =>
            right
            rw [read_setAllStack_cell]
            split <;> exact vague_unknown _ _
      · exact .refl
  | some key' =>
      by_cases here : loc = .cell key'
      · subst here
        exact Or.inr (.cell member written memory key)
      · left
        dsimp only
        split
        · rw [read_setStack, if_neg here]
          exact .refl
        · rw [read_setStack, if_neg here]
          exact .refl

/-- A load leaves a location as it is, or vague, or writes it. -/
theorem kept_applyMemoryLoad {src : Operand} :
    Kept arg (s.read loc) ((engine.applyMemoryLoad i src s funcEa).read loc) ∨
      Writes engine funcEa i loc := by
  unfold applyMemoryLoad
  cases found : registerDestination i with
  | none => exact Or.inl .refl
  | some dst =>
      have shape := List.find?_some found
      simp only [decide_eq_true_eq] at shape
      have writes : Writes engine funcEa i (.reg dst.reg) :=
        .reg (List.mem_of_find?_eq_some found) shape.2 shape.1
      by_cases here : loc = .reg dst.reg
      · subst here
        exact Or.inr writes
      · left
        dsimp only
        split
        · split
          · exact kept_setRegister (vague_unknown _ _)
          · rw [read_setRegister, if_neg here]
            exact .refl
        · exact kept_setRegister (vague_unknown _ _)

theorem kept_of_set {r : Option Nat} {v : ValueLattice} (writes : Writes engine funcEa i (.reg r)) :
    Kept arg (s.read loc) ((s.setRegister r v).read loc) ∨ Writes engine funcEa i loc := by
  by_cases here : loc = .reg r
  · subst here
    exact Or.inr writes
  · rw [read_setRegister, if_neg here]
    exact Or.inl .refl

/-- A built-in locator changes nothing but what the instruction writes. -/
theorem kept_applyLocator {l : Locator} (builtin : l ∈ builtins)
    (accepted : l.accepts i = some true)
    (flags : ExactFlags i) : Kept arg (s.read loc) ((applyLocator l i s).read loc) ∨
      Writes engine funcEa i loc := by
  rcases inherits_or_defines builtin with inherits | forward
  · rw [applyLocator_default inherits]
    exact Or.inl kept_invalidateWritten
  · rcases operands_of_accepts forward accepted with ⟨dst, src, h0, h1, reg⟩
    have zero := Instruction.operand_number h0
    have dest (first : i.mnem ∈ moveMnemonics ++ ["lea", "add", "sub", "xor"] ∨
        startsWith i.mnem "cmov") : Writes engine funcEa i (.reg dst.reg) := by
      apply Writes.reg (Instruction.operand_mem h0) _ reg
      rw [flags.first first dst (Instruction.operand_mem h0), zero]
      rfl
    have listed {mnems : List String} {shape : Operand → Operand → Bool}
        (holds : acceptsPair mnems shape i = some true)
        (sub : ∀ m ∈ mnems, m ∈ moveMnemonics ++ ["lea", "add", "sub", "xor"]) :
        Writes engine funcEa i (.reg dst.reg) :=
      dest (Or.inl (sub _ (acceptsPair_eq_true.mp holds).1))
    simp only [List.mem_cons, List.not_mem_nil, or_false] at forward
    rcases forward with rfl | rfl | rfl | rfl | rfl | rfl | rfl | rfl
    · rw [applyLocator_zeroIdiom h0]
      exact kept_of_set (listed accepted (by decide))
    · rw [applyLocator_movRegReg h0 h1]
      exact kept_of_set (listed accepted (by decide))
    · rw [applyLocator_movRegImm h0 h1]
      exact kept_of_set (listed accepted (by decide))
    · rw [applyLocator_leaRegAddr h0 h1]
      exact kept_of_set (listed accepted (by decide))
    · rw [applyLocator_xchgRegReg h0 h1]
      rcases acceptsPair_eq_true.mp accepted with ⟨mnem, a, b, g0, g1, shape⟩
      have both := flags.both (List.mem_singleton.mp mnem)
      cases h0.symm.trans g0
      cases h1.symm.trans g1
      simp only [decide_eq_true_eq] at shape
      have left : Writes engine funcEa i (.reg dst.reg) := by
        apply Writes.reg (Instruction.operand_mem h0) _ reg
        rw [both dst (Instruction.operand_mem h0), zero]
        rfl
      have right : Writes engine funcEa i (.reg src.reg) := by
        apply Writes.reg (Instruction.operand_mem h1) _ shape.2
        rw [both src (Instruction.operand_mem h1), Instruction.operand_number h1]
        rfl
      rcases kept_of_set (v := s.getRegister dst.reg) right with kept | writes
      · rcases kept_of_set (v := s.getRegister src.reg) left with first | writes
        · exact Or.inl (first.trans kept)
        · exact Or.inr writes
      · exact Or.inr writes
    · rw [applyLocator_cmovRegReg h0 h1]
      apply kept_of_set
      apply dest
      right
      by_contra other
      simp [cmovRegReg, other] at accepted
    · rcases acceptsPair_eq_true.mp accepted with ⟨_, a, b, g0, g1, shape⟩
      cases h1.symm.trans g1
      simp only [decide_eq_true_eq] at shape
      rw [applyLocator_leaRegDispl h0 h1 ⟨shape.2.1, shape.2.2.1⟩]
      exact kept_of_set (listed accepted (by decide))
    · rcases acceptsPair_eq_true.mp accepted with ⟨_, a, b, g0, g1, shape⟩
      cases h1.symm.trans g1
      simp only [decide_eq_true_eq] at shape
      rcases Operand.exists_imm shape.2 with ⟨n, imm⟩
      have amount : addSubDelta i src = some (if i.mnem = "add" then n else -n) := by
        rw [addSubDelta, imm, Option.map_some]
      rw [applyLocator_addSubRegImm h0 h1 amount]
      exact kept_of_set (listed accepted (by decide))

/-- A locator with forward semantics of its own is applied. -/
theorem stepTransfer_forward {l : Locator} (notCall : i.isCall = false)
    (matched : engine.registry.findMatch i = some l) (defines : l.definesForwardSemantics) :
    engine.stepTransfer i s funcEa = applyLocator l i s := by
  rw [stepTransfer, notCall, if_neg Bool.false_ne_true, matched]
  dsimp only
  rw [if_pos defines]

/-- Without forward semantics of its own, the shape of the operands decides. -/
theorem stepTransfer_shape {l : Locator} (notCall : i.isCall = false)
    (matched : engine.registry.findMatch i = some l) (inherits : l.applyForward = none) :
    engine.stepTransfer i s funcEa = engine.transferByShape i s funcEa := by
  rw [stepTransfer, notCall, if_neg Bool.false_ne_true, matched]
  dsimp only
  rw [Locator.definesForwardSemantics, inherits, if_neg (by simp)]

section Loads

variable {a b : Operand}

/-- The first operand is the destination. -/
theorem registerDestination_pair (pair : Pair i a b true false) (dest : a.kind = .reg) :
    registerDestination i = some a := by
  simp [registerDestination, pair.operands, dest, pair.first, pair.flagA]

/-- A move from memory goes the way of the loads. -/
theorem stepTransfer_fromMemory {l : Locator} (notCall : i.isCall = false)
    (matched : engine.registry.findMatch i = some l) (inherits : l.applyForward = none)
    (pair : Pair i a b true false) (dest : a.kind = .reg) (memory : b.isMemory = true) :
    engine.stepTransfer i s funcEa = engine.applyMemoryLoad i b s funcEa := by
  have notMemory : a.isMemory = false := Operand.isMemory_of_reg dest
  have unwritten : memoryOperand i true = none := by
    simp [memoryOperand, pair.operands, notMemory, pair.second, pair.flagB]
  have source : memoryOperand i false = some b := by
    simp [memoryOperand, pair.operands, notMemory, memory, pair.second, pair.flagB, List.filter]
  rw [stepTransfer_shape notCall matched inherits, transferByShape, unwritten, source]

end Loads

/-- The transfer function changes nothing but what the instruction writes. -/
theorem kept_stepTransfer (builtin : engine.registry = defaultRegistry) (flags : ExactFlags i) :
    Kept arg (s.read loc) ((engine.stepTransfer i s funcEa).read loc) ∨
      Writes engine funcEa i loc := by
  have located {l : Locator} (matched : engine.registry.findMatch i = some l) :
      Kept arg (s.read loc) ((applyLocator l i s).read loc) ∨
        Writes engine funcEa i loc := by
    have member := LocatorRegistry.findMatch_mem matched
    rw [builtin, defaultRegistry_all] at member
    exact kept_applyLocator member (LocatorRegistry.findMatch_accepts matched) flags
  have shaped : Kept arg (s.read loc) ((engine.transferByShape i s funcEa).read loc) ∨
      Writes engine funcEa i loc := by
    unfold transferByShape
    cases stored : memoryOperand i true with
    | some dst =>
        have shape := List.mem_of_getLast? stored
        simp only [List.mem_filter, decide_eq_true_eq] at shape
        exact kept_applyMemoryStore shape.1 shape.2.2 shape.2.1
    | none =>
        cases memoryOperand i false with
        | some src => exact kept_applyMemoryLoad
        | none =>
            cases matched : engine.registry.findMatch i with
            | some l => exact located matched
            | none => exact Or.inl kept_invalidateWritten
  unfold stepTransfer
  split
  · exact Or.inl kept_applyCall
  · cases matched : engine.registry.findMatch i with
    | none => exact shaped
    | some l =>
        dsimp only
        split
        · exact located matched
        · exact shaped

/-- A number that names a part of a register stays vague. -/
theorem vague_step (builtin : engine.registry = defaultRegistry) (flags : ExactFlags i)
    (plain : PlainViews engine.port i) {q : Nat} (narrow : ¬ engine.port.Whole q)
    (vague : Vague arg (s.read (.reg (some q)))) :
    Vague arg ((engine.step i s funcEa).read (.reg (some q))) := by
  rcases kept_stepTransfer builtin flags with kept | writes
  · exact (vague.keep kept).keep kept_invalidatePartialRegisterWrites
  · generalize named : Location.reg (some q) = loc at writes
    cases writes with
    | @reg op member written reg =>
        have same : op.reg = some q := (Location.reg.inj named).symm
        have view := plain op member reg q same
        rcases view.2 narrow with ⟨write, known, other⟩
        rw [← named]
        exact vague_of_narrowWrite member reg written same known (view.1 write known other)
          (Or.inl rfl)
    | cell => cases named

end ForwardSymbolicEngine

end IDAnalysister
