import IDAnalysister.Forward.ConditionalMove
import IDAnalysister.Forward.Exactness
import IDAnalysister.Forward.StackPicture
import IDAnalysister.Library.Trace

/-!
# Soundness of the forward engine

What the forward walk answers for a register, against the executions of the function: an
integer is the word in the register, and the symbol of the argument says that the register
still holds the word that it had at the entry. A step of the transfer function keeps a state
right about the machine (`StateStands.step`), a path is a row of such steps, and a walk that
no visit limit cut short answers with the value along every path.
-/

namespace IDAnalysister

open Transfer Trace AbstractState ForwardSymbolicEngine

/-! ## Executions -/

/-- What the instructions that the forward engine models may do to the registers and cells. A
conditional move moves or does not, a call may change the clobbered registers, and an
instruction that no locator knows what it is flagged as writing. -/
inductive TrackedStep (port : IdaPort) (funcEa W : Nat) (i : Instruction) (s s' : State Place W) :
    Prop
  | transfer {op : Op Place} : Form port funcEa W i op → (∀ S, op ≠ .havoc S) → op.Step s s' →
    TrackedStep port funcEa W i s s'
  | cmov {a b : Operand} {d r : Nat} : startsWith i.mnem "cmov" → Pair i a b true false →
    RegOperand port W a d → RegOperand port W b r →
    s' = s ∨ s' = Function.update s (.reg d) (s (.reg r)) → TrackedStep port funcEa W i s s'
  | call : i.isCall → WholeOperands port W i → (∀ op ∈ i.operands, i.isWritten op.number = false) →
    (∀ p, (∀ r ∈ port.callClobberedRegisters, p ≠ .reg r) → s' p = s p) →
    TrackedStep port funcEa W i s s'
  | other : defaultRegistry.findMatch i = none → WholeOperands port W i →
    ((∀ op ∈ i.operands, op.isMemory = false) ∨ ∀ op ∈ i.operands, i.isWritten op.number = false) →
    (∀ p, ¬ Flagged port funcEa i p → s' p = s p) → TrackedStep port funcEa W i s s'

/-- The instruction is one of those forms. -/
def Tracked (port : IdaPort) (funcEa W : Nat) (i : Instruction) : Prop :=
  ∃ s s' : State Place W, TrackedStep port funcEa W i s s'

section Steps

variable {port : IdaPort} {funcEa W : Nat} {i : Instruction} {s s' : State Place W}

/-- The resolver knows the instruction by a form that allows at least this step. -/
theorem TrackedStep.form (step : TrackedStep port funcEa W i s s') :
    ∃ op, Form port funcEa W i op ∧ op.Step s s' := by
  cases step with
  | transfer form _ moved => exact ⟨_, form, moved⟩
  | @cmov a b d r mnem pair dest _ moved =>
      refine ⟨_, .register (.cmov mnem pair dest), ?_⟩
      intro p other
      rcases moved with rfl | rfl
      · rfl
      · exact Function.update_of_ne other _ _
  | call call whole _ kept =>
      refine ⟨_, .register (.call call whole), ?_⟩
      intro p other
      refine kept p fun r clobbered same => other (Or.inl ⟨r, clobbered, same⟩)
  | other unmatched whole _ kept => exact ⟨_, .register (.unmatched unmatched whole), kept⟩

/-- An instruction that can be executed in some state can be in any. -/
theorem Tracked.step (tracked : Tracked port funcEa W i) (s : State Place W) :
    ∃ s', TrackedStep port funcEa W i s s' := by
  rcases tracked with ⟨s₀, s₀', step⟩
  cases step with
  | @transfer op form moves _ =>
      rcases op.exists_step s with ⟨s', moved⟩
      exact ⟨s', .transfer form moves moved⟩
  | cmov mnem pair dest src _ => exact ⟨s, .cmov mnem pair dest src (Or.inl rfl)⟩
  | call call whole unflagged _ => exact ⟨s, .call call whole unflagged fun _ _ => rfl⟩
  | other unmatched whole shape _ => exact ⟨s, .other unmatched whole shape fun _ _ => rfl⟩

end Steps

/-! ## What a value says of a word -/

/-- An integer is the word, and the symbol of the argument `n` stands for the word `x₀`. -/
structure StandsFor {W : Nat} (n : Int) (x₀ x : BitVec W) (v : ValueLattice) : Prop where
  concrete : Holds v x
  argument : v = .symbolic ("arg" ++ toString n) → x = x₀

section Values

variable {W : Nat} {n : Int} {x₀ x y : BitVec W} {v w : ValueLattice}

/-- A vague value stands for every word. -/
theorem Vague.standsFor (vague : Vague (some n) v) (x : BitVec W) : StandsFor n x₀ x v :=
  ⟨.of_not_concrete vague.notConcrete x, fun same => (vague.notArgument n rfl same).elim⟩

/-- So does an unknown one. -/
theorem standsFor_of_unknown (unknown : v.isKnown = false) (x : BitVec W) : StandsFor n x₀ x v := by
  rcases ValueLattice.isKnown_eq_false unknown with ⟨reason, detail, rfl⟩
  exact (vague_unknown reason detail).standsFor x

/-- What is kept, or made vague, still stands for the word. -/
theorem StandsFor.keep (stands : StandsFor n x₀ x v) (kept : Kept (some n) v w) :
    StandsFor n x₀ x w := by
  rcases kept with rfl | vague
  · exact stands
  · exact vague.standsFor x

/-- Claiming less stays right. -/
theorem StandsFor.of_le (stands : StandsFor n x₀ x v) (le : w ≤ v) : StandsFor n x₀ x w := by
  refine ⟨holds_of_le stands.concrete le, ?_⟩
  rintro rfl
  exact stands.argument (ValueLattice.symbolic_le.mp le)

/-- A number that is right stands for the word. -/
theorem standsFor_concrete {d : Datum} {k : ValueKind} (holds : Holds (.concrete d k) x) :
    StandsFor n x₀ x (.concrete d k) := ⟨holds, nofun⟩

/-- The address stands for the base's word, moved. -/
theorem StandsFor.leaValue {size : Nat} (stands : StandsFor n x₀ x v) (width : size * 8 = W)
    (positive : 0 < W) (le : W ≤ 64) (disp : Int) :
    StandsFor n x₀ (x + BitVec.ofInt W disp) (leaValue v disp size) := by
  refine ⟨holds_leaValue width positive le disp stands.concrete, ?_⟩
  intro same
  unfold IDAnalysister.leaValue at same
  split at same
  · split at same
    · cases same
    · rename_i unknown
      rw [same] at unknown
      exact (unknown rfl).elim
  · cases same

/-- The sum stands for the prior word, moved. -/
theorem StandsFor.forwardAddSub {size : Nat} (stands : StandsFor n x₀ x v) (width : size * 8 = W)
    (positive : 0 < W) (le : W ≤ 64) (delta : Int) :
    StandsFor n x₀ (x + BitVec.ofInt W delta) (forwardAddSub v delta size) := by
  unfold ForwardSymbolicEngine.forwardAddSub
  cases known : v.intOf with
  | none =>
      dsimp only
      split
      · exact (vague_unknown _ _).standsFor _
      · rename_i unknown
        exact standsFor_of_unknown (Bool.not_eq_true _ ▸ unknown) _
  | some m =>
      have sum := holds_addSubValue width positive le delta stands.concrete
      rw [addSubValue, known] at sum
      exact standsFor_concrete sum

end Values

/-! ## States -/

/-- The state is right about every whole register and every cell that it can name. -/
def StateStands (port : IdaPort) {W : Nat} (n : Int) (x₀ : BitVec W) (s : AbstractState)
    (m : State Place W) : Prop :=
  ∀ loc p, Mirrors loc p → Supported port W p → StandsFor n x₀ (m p) (s.read loc)

/-- A place has one location in the abstract state. -/
theorem Mirrors.eq_of_place {loc loc' : Location} {p : Place} (left : Mirrors loc p)
    (right : Mirrors loc' p) : loc = loc' := by
  cases left with
  | reg q =>
      cases right with
      | reg => rfl
  | cell k =>
      generalize located : Place.cell k.location = p at right
      cases right with
      | reg => cases located
      | cell k' => cases k <;> cases k' <;> cases located <;> rfl

namespace StateStands

variable {port : IdaPort} {W : Nat} {n : Int} {x₀ x : BitVec W} {s t : AbstractState}
variable {m m' : State Place W} {v : ValueLattice} {loc : Location} {p : Place}

/-- A state that keeps its values, or loses them, stays right. -/
theorem keep (stands : StateStands port n x₀ s m)
    (kept : ∀ loc, Kept (some n) (s.read loc) (t.read loc)) : StateStands port n x₀ t m :=
  fun loc p mirrors supported => (stands loc p mirrors supported).keep (kept loc)

/-- A word and a value that is right about it may be put in the same place. -/
theorem update (stands : StateStands port n x₀ s m) (mirrors : Mirrors loc p)
    (value : StandsFor n x₀ x v) (put : ∀ l, t.read l = if l = loc then v else s.read l) :
    StateStands port n x₀ t (Function.update m p x) := by
  intro loc' p' mirrors' supported
  rw [put]
  by_cases place : p' = p
  · subst place
    rw [if_pos (mirrors'.eq_of_place mirrors), Function.update_self]
    exact value
  · have other : loc' ≠ loc := by
      rintro rfl
      cases mirrors <;> cases mirrors' <;> exact place rfl
    rw [if_neg other, Function.update_of_ne place]
    exact stands loc' p' mirrors' supported

/-- A register may be set on both sides. -/
theorem setRegister (stands : StateStands port n x₀ s m) (d : Nat) (value : StandsFor n x₀ x v) :
    StateStands port n x₀ (s.setRegister (some d) v) (Function.update m (.reg d) x) :=
  stands.update (.reg d) value (read_setRegister s (some d) v)

/-- A cell may be set on both sides. -/
theorem setStack (stands : StateStands port n x₀ s m) (k : StackKey)
    (value : StandsFor n x₀ x v) :
    StateStands port n x₀ (s.setStack k v) (Function.update m (.cell k.location) x) :=
  stands.update (.cell k) value (read_setStack s k v)

/-- A place that the state has no name for may hold anything. -/
theorem unnamed (stands : StateStands port n x₀ s m) (none' : ∀ loc, ¬ Mirrors loc p)
    (x : BitVec W) : StateStands port n x₀ s (Function.update m p x) := by
  intro loc' p' mirrors supported
  rw [Function.update_of_ne]
  · exact stands loc' p' mirrors supported
  · rintro rfl
    exact none' loc' mirrors

theorem register (stands : StateStands port n x₀ s m) {r : Nat} (whole : WholeReg port W r) :
    StandsFor n x₀ (m (.reg r)) (s.getRegister (some r)) :=
  stands (.reg (some r)) (.reg r) (.reg r) whole

theorem cell (stands : StateStands port n x₀ s m) (k : StackKey) :
    StandsFor n x₀ (m (.cell k.location)) (s.getStack k) :=
  stands (.cell k) (.cell k.location) (.cell k) trivial

end StateStands

/-! ## One step -/

section Step

variable {self : ForwardSymbolicEngine} {funcEa W : Nat} {i : Instruction} {n : Int}
variable {x₀ : BitVec W} {s : AbstractState} {m m' : State Place W} {a b : Operand}

/-- A store leaves its source in the cell, if the state has a name for it. -/
theorem StateStands.store (stands : StateStands self.port n x₀ s m) {l : Locator}
    (notCall : i.isCall = false) (matched : self.registry.findMatch i = some l)
    (inherits : l.applyForward = none) (pair : Pair i a b true false) {k : MemoryKey}
    (dest : CellOperand self.port funcEa i.ea a k) {x : BitVec W}
    (source : StandsFor n x₀ x (valueOfSource (some b) s)) :
    StateStands self.port n x₀ (self.stepTransfer i s funcEa)
      (Function.update m (.cell k) x) := by
  have written : memoryOperand i true = some a := by
    simp [memoryOperand, pair.operands, dest.isMemory, pair.first, pair.flagA, pair.second,
      pair.flagB, List.filter]
  have other : otherOperand i a = some b := by
    simp [otherOperand, pair.operands, pair.first, pair.second]
  rw [stepTransfer_shape notCall matched inherits, transferByShape, written]
  dsimp only
  rw [applyMemoryStore]
  cases known : self.stackKey a i.ea funcEa with
  | some key =>
      have same : key.location = k :=
        Option.some.inj ((cellOperand_of_stackKey known).location.symm.trans dest.location)
      subst same
      dsimp only
      split
      · rw [other]
        exact stands.setStack key source
      · exact stands.setStack key ((vague_unknown _ _).standsFor x)
  | none =>
      have unnamed : ∀ loc, ¬ Mirrors loc (.cell k) := by
        intro loc mirrors
        generalize located : Place.cell k = p at mirrors
        cases mirrors with
        | reg => cases located
        | cell k' =>
            cases located
            rw [stackKey_of_location dest.isMemory dest.noIndex dest.location] at known
            cases known
      refine (stands.unnamed unnamed x).keep fun loc => ?_
      dsimp only
      unfold invalidatePossiblyAliasedStack
      split
      · cases loc with
        | reg r => exact .refl
        | cell k' =>
            rw [read_setAllStack_cell]
            split
            · exact Or.inr (vague_unknown _ _)
            · exact Or.inr (vague_unknown _ _)
      · exact .refl

/-- A load takes what stands in the cell, if the state has a name for it. -/
theorem StateStands.load (stands : StateStands self.port n x₀ s m) {l : Locator}
    (notCall : i.isCall = false) (matched : self.registry.findMatch i = some l)
    (inherits : l.applyForward = none) (pair : Pair i a b true false) {d : Nat} {k : MemoryKey}
    (dest : RegOperand self.port W a d) (source : CellOperand self.port funcEa i.ea b k) :
    StateStands self.port n x₀ (self.stepTransfer i s funcEa)
      (Function.update m (.reg d) (m (.cell k))) := by
  have lost (reason : UnknownReason) : StateStands self.port n x₀
      (s.invalidateRegister a.reg reason) (Function.update m (.reg d) (m (.cell k))) := by
    rw [dest.reg]
    exact stands.setRegister d ((vague_unknown _ _).standsFor _)
  rw [stepTransfer_fromMemory notCall matched inherits pair dest.kind source.isMemory,
    applyMemoryLoad, registerDestination_pair pair dest.kind]
  dsimp only
  split
  · cases known : self.stackKey b i.ea funcEa with
    | none => exact lost _
    | some key =>
        have same : key.location = k :=
          Option.some.inj ((cellOperand_of_stackKey known).location.symm.trans source.location)
        subst same
        rw [dest.reg]
        exact stands.setRegister d (stands.cell key)
  · exact lost _

/-! Whatever locator takes a move to or from a cell, as long as it leaves `apply_forward` alone. -/

section Moves

variable {l : Locator} (notCall : i.isCall = false)
variable (matched : self.registry.findMatch i = some l) (inherits : l.applyForward = none)
variable (pair : Pair i a b true false) {k : MemoryKey}
include notCall matched inherits pair

/-- Storing an immediate keeps the state right. -/
theorem StateStands.storeImm (stands : StateStands self.port n x₀ s m)
    (dest : CellOperand self.port funcEa i.ea a k) {c : Int} (imm : ImmOperand W b c)
    (moved : (Op.const (Place.cell k) c).Step m m') :
    StateStands self.port n x₀ (self.stepTransfer i s funcEa) m' := by
  obtain rfl := moved
  refine stands.store notCall matched inherits pair dest ?_
  rw [valueOfSource, if_neg (by simp [imm.kind]), if_pos imm.kind, imm.value]
  exact standsFor_concrete (holds_ofInt imm.nonneg imm.lt _)

/-- Storing a register keeps the state right. -/
theorem StateStands.storeReg (stands : StateStands self.port n x₀ s m)
    (dest : CellOperand self.port funcEa i.ea a k) {r : Nat} (src : RegOperand self.port W b r)
    (moved : (Op.offset (Place.cell k) (Place.reg r) 0).Step m m') :
    StateStands self.port n x₀ (self.stepTransfer i s funcEa) m' := by
  obtain rfl := moved
  refine stands.store notCall matched inherits pair dest ?_
  rw [valueOfSource, if_pos src.kind, src.reg]
  have value := stands.register src.whole
  simpa using value

/-- Loading a cell keeps the state right. -/
theorem StateStands.loaded (stands : StateStands self.port n x₀ s m) {d : Nat}
    (dest : RegOperand self.port W a d) (src : CellOperand self.port funcEa i.ea b k)
    (moved : (Op.offset (Place.reg d) (Place.cell k) 0).Step m m') :
    StateStands self.port n x₀ (self.stepTransfer i s funcEa) m' := by
  have plain : m (.cell k) + BitVec.ofInt W 0 = m (.cell k) := by simp
  have loaded : m' = Function.update m (.reg d) (m (.cell k) + BitVec.ofInt W 0) := moved
  rw [plain] at loaded
  subst loaded
  exact stands.load notCall matched inherits pair dest src

end Moves

/-- After a call the clobbered registers hold nothing that is known. -/
theorem vague_applyCall {arg : Option Int} {r : Nat}
    (clobbered : r ∈ self.port.callClobberedRegisters) :
    Vague arg ((self.applyCall i s).read (.reg (some r))) := by
  have lost : Vague arg ((self.port.callClobberedRegisters.foldl
      (fun s reg => s.invalidateRegister (some reg) .indirectControlFlow) s).read
        (.reg (some r))) := by
    rcases List.append_of_mem clobbered with ⟨early, late, split⟩
    rw [split, List.foldl_append, List.foldl_cons]
    refine Vague.keep ?_ (kept_foldl (fun _ _ _ => kept_setRegister (vague_unknown _ _)) _)
    rw [read_invalidateRegister, if_pos rfl]
    exact vague_unknown _ _
  unfold applyCall
  cases self.port.returnValueReg with
  | none => exact lost
  | some reg => exact lost.keep (kept_setRegister (vague_return _))

theorem not_isCall_of_unmatched (unmatched : defaultRegistry.findMatch i = none) :
    i.isCall = false := by
  rw [Bool.eq_false_iff]
  intro call
  rw [findMatch_call call] at unmatched
  cases unmatched

/-- A call keeps the state right: what it may clobber is given up. -/
theorem StateStands.call (stands : StateStands self.port n x₀ s m)
    (kept : ∀ p, (∀ r ∈ self.port.callClobberedRegisters, p ≠ .reg r) → m' p = m p) :
    StateStands self.port n x₀ (self.applyCall i s) m' := by
  intro loc p mirrors supported
  by_cases clobbered : ∃ r ∈ self.port.callClobberedRegisters, p = .reg r
  · rcases clobbered with ⟨r, member, rfl⟩
    cases mirrors with
    | reg => exact (vague_applyCall member).standsFor _
  · rw [kept p fun r member same => clobbered ⟨r, member, same⟩]
    exact (stands loc p mirrors supported).keep kept_applyCall

/-- A locator without forward semantics gives up what the instruction writes. -/
theorem applyLocator_passive {l : Locator} (inherits : l.applyForward = none) :
    applyLocator l i s = invalidateWrittenRegisters i s := by
  rw [applyLocator, Locator.runForward, inherits]
  rfl

/-- An instruction without a locator, or whose locator leaves `apply_forward` alone, loses the
registers that it is flagged as writing. -/
theorem stepTransfer_passive (notCall : i.isCall = false)
    (passive : ∀ l, self.registry.findMatch i = some l → l.applyForward = none)
    (shape : (∀ op ∈ i.operands, op.isMemory = false) ∨
      ∀ op ∈ i.operands, i.isWritten op.number = false) :
    self.stepTransfer i s funcEa = invalidateWrittenRegisters i s := by
  have shaped : self.stepTransfer i s funcEa = self.transferByShape i s funcEa := by
    cases matched : self.registry.findMatch i with
    | none => rw [stepTransfer, notCall, if_neg Bool.false_ne_true, matched]
    | some l => exact stepTransfer_shape notCall matched (passive l matched)
  rw [shaped]
  rcases shape with plain | unwritten
  · rw [transferByShape_plain plain]
    split
    · rename_i l matched
      exact applyLocator_passive (passive l matched)
    · rfl
  · have same : invalidateWrittenRegisters i s = s := by
      refine List.foldlRecOn (motive := (· = s)) i.operands _ rfl ?_
      intro t kept op member
      rw [if_neg (by simp [unwritten op member]), kept]
    have undirected : registerDestination i = none := by
      refine List.find?_eq_none.mpr fun op member => ?_
      simp [unwritten op member]
    have unstored : memoryOperand i true = none :=
      memoryOperand_eq_none fun op member _ => by simp [unwritten op member]
    rw [transferByShape, unstored]
    cases memoryOperand i false with
    | none =>
        dsimp only
        split
        · rename_i l matched
          exact applyLocator_passive (passive l matched)
        · rfl
    | some src =>
        dsimp only
        rw [applyMemoryLoad, undirected, same]

/-- What may change becomes unknown. -/
theorem StateStands.invalidated (stands : StateStands self.port n x₀ s m)
    (quiet : ∀ op ∈ i.operands, op.isMemory → i.isWritten op.number = false)
    (kept : ∀ p, ¬ Flagged self.port funcEa i p → m' p = m p) :
    StateStands self.port n x₀ (invalidateWrittenRegisters i s) m' := by
  intro loc p mirrors supported
  cases mirrors with
  | cell k =>
      have unwritten : ¬ Flagged self.port funcEa i (.cell k.location) := by
        rw [Flagged, memoryFinding_quiet quiet]
        exact Bool.false_ne_true
      have apart : ∀ r, Location.cell k = .reg r → ¬ FlagsRegister i r := by
        intro r same
        cases same
      rw [kept _ unwritten, read_invalidateWritten apart]
      exact stands _ _ (.cell k) supported
  | reg q =>
      by_cases flagged : FlagsRegister i (some q)
      · refine standsFor_of_unknown ?_ _
        rw [Bool.eq_false_iff]
        intro known
        exact (known_invalidateWritten.mp known).2 flagged
      · have apart : ∀ r, Location.reg (some q) = .reg r → ¬ FlagsRegister i r := by
          intro r same
          cases same
          exact flagged
        have unwritten : ¬ Flagged self.port funcEa i (.reg q) := flagged
        rw [kept _ unwritten, read_invalidateWritten apart]
        exact stands _ _ (.reg q) supported

/-- Without forward semantics, whatever it writes becomes unknown. -/
theorem StateStands.passive (stands : StateStands self.port n x₀ s m) (notCall : i.isCall = false)
    (passive : ∀ l, self.registry.findMatch i = some l → l.applyForward = none)
    (shape : (∀ op ∈ i.operands, op.isMemory = false) ∨
      ∀ op ∈ i.operands, i.isWritten op.number = false)
    (kept : ∀ p, ¬ Flagged self.port funcEa i p → m' p = m p) :
    StateStands self.port n x₀ (self.stepTransfer i s funcEa) m' := by
  rw [stepTransfer_passive notCall passive shape]
  refine stands.invalidated ?_ kept
  intro op member memory
  rcases shape with plain | unwritten
  · rw [plain op member] at memory
    cases memory
  · exact unwritten op member

/-- An instruction of another form keeps the state right: what it writes is given up. -/
theorem StateStands.other (stands : StateStands self.port n x₀ s m)
    (builtin : self.registry = defaultRegistry) (unmatched : defaultRegistry.findMatch i = none)
    (shape : (∀ op ∈ i.operands, op.isMemory = false) ∨
      ∀ op ∈ i.operands, i.isWritten op.number = false)
    (kept : ∀ p, ¬ Flagged self.port funcEa i p → m' p = m p) :
    StateStands self.port n x₀ (self.stepTransfer i s funcEa) m' := by
  refine stands.passive (not_isCall_of_unmatched unmatched) ?_ shape kept
  rw [builtin, unmatched]
  exact nofun

/-- A form that moves words does the same to the values of the state. -/
theorem StateStands.transfer (stands : StateStands self.port n x₀ s m)
    (builtin : self.registry = defaultRegistry) (positive : 0 < W) (le : W ≤ 64) {op : Op Place}
    (form : Form self.port funcEa W i op) (moves : ∀ S, op ≠ .havoc S) (moved : op.Step m m') :
    StateStands self.port n x₀ (self.stepTransfer i s funcEa) m' := by
  have forward {l : Locator} (notCall : i.isCall = false)
      (matched : defaultRegistry.findMatch i = some l) (defines : l.definesForwardSemantics) :
      self.stepTransfer i s funcEa = applyLocator l i s :=
    stepTransfer_forward notCall (builtin ▸ matched) defines
  cases form with
  | register form =>
      cases form with
      | @movImm a b d c mnem pair dest imm =>
          obtain rfl := moved
          rw [forward (not_isCall_of_mnem mnem (by decide))
            (findMatch_movImm mnem pair dest.kind imm.kind) rfl,
            applyLocator_movRegImm pair.operand_zero pair.operand_one, dest.reg, imm.value]
          exact stands.setRegister d (standsFor_concrete (holds_ofInt imm.nonneg imm.lt _))
      | @movReg a b d r mnem pair dest src =>
          obtain rfl := moved
          rw [forward (not_isCall_of_mnem mnem (by decide))
            (findMatch_movReg mnem pair dest.kind src.kind) rfl,
            applyLocator_movRegReg pair.operand_zero pair.operand_one, dest.reg, src.reg]
          have value := stands.register src.whole
          exact stands.setRegister d (by simpa using value)
      | @leaAddr a b d c mnem pair dest direct addr nonneg lt =>
          obtain rfl := moved
          rw [forward (not_isCall_of_mnem mnem (by decide))
            (findMatch_leaAddr mnem pair dest.kind direct) rfl,
            applyLocator_leaRegAddr pair.operand_zero pair.operand_one, dest.reg, addr]
          exact stands.setRegister d (standsFor_concrete (holds_ofInt nonneg lt _))
      | @leaDispl a b d r mnem pair dest shape reg whole plain =>
          obtain rfl := moved
          rw [forward (not_isCall_of_mnem mnem (by decide))
            (findMatch_leaDispl mnem pair dest.kind shape (by simp [reg]) plain) rfl,
            applyLocator_leaRegDispl pair.operand_zero pair.operand_one ⟨shape, by simp [reg]⟩,
            dest.reg, reg]
          exact stands.setRegister d
            ((stands.register whole).leaValue dest.width positive le b.disp)
      | @addImm a b d c mnem pair dest imm =>
          obtain rfl := moved
          have amount : addSubDelta i b = some c := by simp [addSubDelta, imm.value, mnem]
          rw [forward (not_isCall_of_mnem mnem (by decide))
            (findMatch_addSub (Or.inl mnem) pair dest.kind imm.kind) rfl,
            applyLocator_addSubRegImm pair.operand_zero pair.operand_one amount, dest.reg]
          exact stands.setRegister d
            ((stands.register dest.whole).forwardAddSub dest.width positive le c)
      | @subImm a b d c mnem pair dest imm =>
          obtain rfl := moved
          have amount : addSubDelta i b = some (-c) := by simp [addSubDelta, imm.value, mnem]
          rw [forward (not_isCall_of_mnem mnem (by decide))
            (findMatch_addSub (Or.inr mnem) pair dest.kind imm.kind) rfl,
            applyLocator_addSubRegImm pair.operand_zero pair.operand_one amount, dest.reg]
          exact stands.setRegister d
            ((stands.register dest.whole).forwardAddSub dest.width positive le (-c))
      | @zero a b d mnem pair dest src =>
          obtain rfl := moved
          have notCall : i.isCall = false := by
            rcases mnem with mnem | mnem
            · exact not_isCall_of_mnem mnem (by decide)
            · exact not_isCall_of_mnem mnem (by decide)
          rw [forward notCall (findMatch_zero mnem pair dest.kind src.kind
            (dest.reg.trans src.reg.symm)) rfl, applyLocator_zeroIdiom pair.operand_zero, dest.reg]
          exact stands.setRegister d
            (standsFor_concrete (holds_ofInt (Int.le_refl 0) (by positivity) _))
      | @xchg a b d r mnem pair left right =>
          obtain rfl := moved
          rw [forward (not_isCall_of_mnem mnem (by decide))
            (findMatch_xchg mnem pair left.kind right.kind) rfl,
            applyLocator_xchgRegReg pair.operand_zero pair.operand_one, left.reg, right.reg]
          exact (stands.setRegister d (stands.register right.whole)).setRegister r
            (stands.register left.whole)
      | cmov => exact (moves _ rfl).elim
      | call => exact (moves _ rfl).elim
      | unmatched => exact (moves _ rfl).elim
  | @storeImm a b k c mnem pair dest imm =>
      have matched := findMatch_movMemImm mnem pair dest.isMemory imm.kind
      rw [← builtin] at matched
      exact stands.storeImm (not_isCall_of_mnem mnem (by decide)) matched rfl pair dest imm moved
  | @storeReg a b k r mnem pair dest src =>
      have matched := findMatch_movMemReg mnem pair dest.isMemory src.kind
      rw [← builtin] at matched
      exact stands.storeReg (not_isCall_of_mnem mnem (by decide)) matched rfl pair dest src moved
  | @load a b k d mnem pair dest src =>
      have matched := findMatch_movRegMem mnem pair dest.kind src.isMemory
      rw [← builtin] at matched
      exact stands.loaded (not_isCall_of_mnem mnem (by decide)) matched rfl pair dest src moved

/-- A step of the engine keeps its state right about the machine. -/
theorem StateStands.step (stands : StateStands self.port n x₀ s m)
    (builtin : self.registry = defaultRegistry) (positive : 0 < W) (le : W ≤ 64)
    (step : TrackedStep self.port funcEa W i m m') :
    StateStands self.port n x₀ (self.step i s funcEa) m' := by
  refine StateStands.keep ?_ fun loc => kept_invalidatePartialRegisterWrites
  cases step with
  | transfer form moves moved => exact stands.transfer builtin positive le form moves moved
  | @cmov a b d r mnem pair dest src moved =>
      rw [stepTransfer_cmov builtin mnem pair dest.kind, dest.reg, src.reg]
      -- the join says of the destination no more than either content does
      have kept := (stands.register dest.whole).of_le
        (ValueLattice.join_le_left _ (s.getRegister (some r)))
      have taken := (stands.register src.whole).of_le
        (ValueLattice.join_le_right (s.getRegister (some d)) _)
      rcases moved with rfl | rfl
      · have same := stands.setRegister d kept
        rwa [Function.update_eq_self] at same
      · exact stands.setRegister d taken
  | call call _ _ kept =>
      rw [stepTransfer, if_pos call]
      exact stands.call kept
  | other unmatched _ shape kept => exact stands.other builtin unmatched shape kept

/-- So does a path. -/
theorem StateStands.run (stands : StateStands self.port n x₀ s m)
    (builtin : self.registry = defaultRegistry) (positive : 0 < W) (le : W ≤ 64)
    {π : List Instruction} (execution : Along (TrackedStep self.port funcEa W) π m m') :
    StateStands self.port n x₀ (self.runSteps funcEa π s) m' :=
  execution.simulates (fun _ _ _ _ _ stands step => stands.step builtin positive le step) stands

/-- The seeded state is right when the function is entered. -/
theorem stateStands_seed (reg : Nat) (n : Int) (m : State Place W) :
    StateStands self.port n (m (.reg reg)) (seed reg n) m := by
  intro loc p mirrors supported
  rw [seed, read_setRegister]
  split
  · rename_i named
    subst named
    cases mirrors
    have symbol : ∀ d k, ValueLattice.symbolic ("arg" ++ toString n) ≠ .concrete d k := by
      intro d k same
      cases same
    exact ⟨.of_not_concrete symbol _, fun _ => rfl⟩
  · rw [read_empty]
    exact (vague_unknown _ _).standsFor _

end Step

/-! ## Answers -/

/-- The answer of a walk stands for the word in the register when an execution gets to the
target. -/
theorem standsFor_of_answer (self : ForwardSymbolicEngine)
    (builtin : self.registry = defaultRegistry)
    {funcEa W : Nat} (positive : 0 < W) (le : W ≤ 64) (G : ConsistentCfg self.port funcEa)
    (source : G.cfg.predecessors G.entry = []) {argIndex : Int} {reg : Nat}
    (whole : WholeReg self.port W reg) {bound : Nat} {w : WalkState}
    (run : self.runWorklist bound (G.walk argIndex reg) = some w) (visits : self.WithinVisits w)
    {targetEa : Nat} {v : ValueLattice}
    (answer : self.resolveAt bound funcEa argIndex targetEa (some reg) = some v)
    {π : List Instruction} (path : G.PathTo targetEa π) {m m' : State Place W}
    (execution : Along (TrackedStep self.port funcEa W) π m m') :
    StandsFor argIndex (m (.reg reg)) (m' (.reg reg)) v := by
  cases known : v.isKnown with
  | false => exact standsFor_of_unknown known _
  | true =>
      have ok := not_exceeded_of_known G.blockContaining_entry run answer known
      rcases final_of_run builtin (ConsistentCfg.proper argIndex reg) G.converse_cfg run ok visits
        with ⟨consistent, final, -⟩
      rcases path.block with ⟨b, hb, lo, hi⟩
      rcases ConsistentCfg.answer_cases run ok consistent final hb lo hi with ⟨u, again, cases'⟩
      obtain rfl := Option.some.inj (answer.symm.trans again)
      rcases cases' with ⟨reachable, rfl⟩ | ⟨-, unknown⟩
      · have back : ∀ π, G.Path G.entry π →
            seed reg argIndex ≤ self.runSteps funcEa π (seed reg argIndex) := by
          intro π entered
          rw [ConsistentCfg.path_entry source entered]
          exact le_refl _
        have along := ConsistentCfg.answer_sound consistent final back hb lo hi reachable known path
        rw [← along]
        exact ((stateStands_seed reg argIndex m).run builtin positive le execution).register whole
      · rw [unknown] at known
        cases known

/-- Running the worklist shows that no limit cuts it short. -/
theorem exists_walk {self : ForwardSymbolicEngine} {bound : Nat} {walk : Walk}
    (run : (self.runWorklist bound walk).any fun w =>
      ∀ b ∈ walk.cfg.blocks, exceeds self.maxBlockVisits (w.visitCounts b.startEa) = false) :
    ∃ w, self.runWorklist bound walk = some w ∧ self.WithinVisits w := by
  rcases (Option.any_eq_true _ _).mp run with ⟨w, returned, fits⟩
  simp only [decide_eq_true_eq] at fits
  exact ⟨w, returned, withinVisits_of_run returned fits⟩

namespace CountedLoop

theorem along (m : State Place 32) :
    Along (TrackedStep port 0x401000 32) [setEsi, back] m
      (Function.update m (.reg 6) (BitVec.ofInt 32 0x404000)) := by
  have form : Form port 0x401000 32 setEsi (.const (.reg 6) 0x404000) :=
    .register (.movImm rfl ⟨rfl, rfl, rfl, rfl, rfl⟩
      ⟨rfl, rfl, rfl, FakeIdaPort.wholeReg rfl (by decide)⟩ ⟨rfl, rfl, by decide, by decide⟩)
  refine .cons (.transfer form nofun rfl)
    (.cons (.other (by decide) ?_ (Or.inr (by decide)) fun _ _ => rfl) (.nil _))
  intro op member reg
  obtain rfl := List.mem_singleton.mp member
  cases reg

theorem walks_esi : ∃ w, engine.runWorklist 64 (graph.walk 0 6) = some w ∧
    engine.WithinVisits w :=
  exists_walk (by decide)

end CountedLoop

end IDAnalysister
