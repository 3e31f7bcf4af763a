import IDAnalysister.Forward.Engine

/-!
# The transfer function as a function on states

Every step of the forward engine with the built-in locators is `Tame`: monotone in the
information order, closed on scalar states, creating entries only for the locations that
occur in the instruction, and passing a symbol on wherever it came from. Joining and widening
are described by what they leave at each location.
-/

namespace IDAnalysister

namespace AbstractState

/-! ## Reading joined and widened states -/

/-- The keys of several states together are those of each. -/
theorem mem_foldr_union {α : Type} [DecidableEq α] {keys : AbstractState → Finset α} {k : α}
    {states : List AbstractState} :
    k ∈ states.foldr (fun s acc => keys s ∪ acc) ∅ ↔ ∃ s ∈ states, k ∈ keys s := by
  induction states with
  | nil => simp
  | cons s states ih => simp [ih]

/-- A joined state has an entry for whatever one of the states has an entry for. -/
theorem tracks_joinStates {states : List AbstractState} {l : Location} :
    (joinStates states).Tracks l ↔ ∃ s ∈ states, s.Tracks l := by
  cases l with
  | reg r => simp only [Tracks, joinStates, Finmap.keys_tabulate, mem_foldr_union]
  | cell k => simp only [Tracks, joinStates, Finmap.keys_tabulate, mem_foldr_union]

theorem joinAll_replicate_unknown (n : Nat) :
    ValueLattice.joinAll (List.replicate (n + 1) (.unknown' .noDefinitionFound)) =
      .unknown' .noDefinitionFound := by
  rw [List.replicate_succ, ValueLattice.joinAll]
  induction n with
  | zero => rfl
  | succ n ih => rw [List.replicate_succ, List.foldl_cons, ValueLattice.join, ih]

/-- A joined state holds at each location the join over all states. -/
theorem read_joinStates {states : List AbstractState} (nonempty : states ≠ []) (l : Location) :
    (joinStates states).read l = .joinAll (states.map (·.read l)) := by
  by_cases tracked : (joinStates states).Tracks l
  · cases l with
    | reg r =>
        have member : r ∈ (joinStates states).registers.keys := tracked
        simp only [joinStates, Finmap.keys_tabulate] at member
        simp only [read, getRegister, joinStates, Finmap.lookup_tabulate, if_pos member]
        rfl
    | cell k =>
        have member : k ∈ (joinStates states).stack.keys := tracked
        simp only [joinStates, Finmap.keys_tabulate] at member
        simp only [read, getStack, joinStates, Finmap.lookup_tabulate, if_pos member]
        rfl
  · -- no state has an entry, so all of them read the default
    rw [read_of_not_tracks tracked]
    have default : states.map (·.read l) =
        List.replicate states.length (.unknown' .noDefinitionFound) := by
      apply List.eq_replicate_iff.mpr
      refine ⟨by simp, ?_⟩
      intro v member
      rcases List.mem_map.mp member with ⟨s, inside, rfl⟩
      exact read_of_not_tracks fun tracks => tracked (tracks_joinStates.mpr ⟨s, inside, tracks⟩)
    rcases Nat.exists_eq_succ_of_ne_zero (List.length_pos_iff.mpr nonempty).ne' with ⟨n, length⟩
    rw [default, length, joinAll_replicate_unknown]

/-- `_join_states` is the greatest lower bound. -/
theorem isGLB_joinStates {states : List AbstractState} (nonempty : states ≠ []) :
    IsGLB {s | s ∈ states} (joinStates states) := by
  have some' (l : Location) : states.map (·.read l) ≠ [] := by simpa using nonempty
  constructor
  · intro s member l
    rw [read_joinStates nonempty]
    exact ValueLattice.joinAll_le (List.mem_map.mpr ⟨s, member, rfl⟩)
  · intro t below l
    rw [read_joinStates nonempty, ValueLattice.le_joinAll_iff (some' l)]
    intro v member
    rcases List.mem_map.mp member with ⟨s, inside, rfl⟩
    exact below inside l

/-- Joining keeps states scalar. -/
theorem scalar_joinStates {states : List AbstractState} (each : ∀ s ∈ states, s.Scalar) :
    (joinStates states).Scalar := by
  intro l
  by_cases nonempty : states = []
  · subst nonempty
    have untracked : ¬ (joinStates []).Tracks l := by simp [tracks_joinStates]
    rw [read_of_not_tracks untracked]
    exact ValueLattice.scalar_unknown _ _
  · rw [read_joinStates nonempty]
    apply ValueLattice.scalar_joinAll
    intro v member
    rcases List.mem_map.mp member with ⟨s, inside, rfl⟩
    exact each s inside l

/-- A widened state has an entry for whatever either state has an entry for. -/
theorem tracks_widen {prev new : AbstractState} {l : Location} :
    (widen prev new).Tracks l ↔ prev.Tracks l ∨ new.Tracks l := by
  cases l with
  | reg r => simp only [Tracks, widen, Finmap.keys_tabulate, Finset.mem_union]
  | cell k => simp only [Tracks, widen, Finmap.keys_tabulate, Finset.mem_union]

theorem pin_self (v : ValueLattice) : pin v v = v := if_pos rfl

/-- Widening keeps what both states agree on and gives up the rest. -/
theorem read_widen (prev new : AbstractState) (l : Location) :
    (widen prev new).read l = pin (prev.read l) (new.read l) := by
  by_cases tracked : (widen prev new).Tracks l
  · cases l with
    | reg r =>
        have member : r ∈ (widen prev new).registers.keys := tracked
        simp only [widen, Finmap.keys_tabulate] at member
        simp only [read, getRegister, widen, Finmap.lookup_tabulate, if_pos member]
        rfl
    | cell k =>
        have member : k ∈ (widen prev new).stack.keys := tracked
        simp only [widen, Finmap.keys_tabulate] at member
        simp only [read, getStack, widen, Finmap.lookup_tabulate, if_pos member]
        rfl
  · rw [tracks_widen, not_or] at tracked
    rw [read_of_not_tracks tracked.1, read_of_not_tracks tracked.2, pin_self]
    exact read_of_not_tracks (by rw [tracks_widen, not_or]; exact tracked)

/-- Widening keeps states scalar. -/
theorem scalar_widen {prev new : AbstractState} (scalar : prev.Scalar) :
    (widen prev new).Scalar := by
  intro l
  rw [read_widen, pin]
  split
  · exact scalar l
  · exact ValueLattice.scalar_unknown _ _

/-- Widening never claims more than the new state. -/
theorem widen_le (prev new : AbstractState) : widen prev new ≤ new := by
  intro l
  rw [read_widen, pin]
  split
  · rename_i same
    exact same.le
  · exact ValueLattice.unknown_le _ _ _

/-- Widening loses nothing that the new state knows, when that lies below the old one. -/
theorem le_widen {prev new : AbstractState} (scalar : new.Scalar) (below : new ≤ prev) :
    new ≤ widen prev new := by
  intro l
  rw [read_widen, pin]
  split
  · rename_i same
    exact same.ge
  · rename_i differs
    cases known : (new.read l).isKnown with
    | true => exact (differs ((scalar l).eq_of_le known (below l))).elim
    | false =>
        rcases ValueLattice.isKnown_eq_false known with ⟨reason, detail, unknown⟩
        rw [unknown]
        exact ValueLattice.unknown_le _ _ _

/-! ## Tame functions -/

/-- The symbol stands in `t` wherever it stands in `s`. -/
def Carries (e : String) (s t : AbstractState) : Prop :=
  ∀ l, s.read l = .symbolic e → t.read l = .symbolic e

/-- Monotone, closed on scalar states, and creating entries only in `K`. Where a symbol ends
up depends on where it stood, and on nothing else. -/
structure Tame (K : Location → Prop) (f : AbstractState → AbstractState) : Prop where
  mono : ∀ s t, s ≤ t → f s ≤ f t
  scalar : ∀ s, s.Scalar → (f s).Scalar
  tracks : ∀ s l, (f s).Tracks l → s.Tracks l ∨ K l
  carries : ∀ e s t, Carries e s t → Carries e (f s) (f t)

/-- The same for a value read off a state. -/
structure TameValue (v : AbstractState → ValueLattice) : Prop where
  mono : ∀ s t, s ≤ t → v s ≤ v t
  scalar : ∀ s, s.Scalar → (v s).Scalar
  carries : ∀ e s t, Carries e s t → v s = .symbolic e → v t = .symbolic e

theorem TameValue.const {v : ValueLattice} (scalar : v.Scalar) : TameValue fun _ => v :=
  ⟨fun _ _ _ => le_refl v, fun _ _ => scalar, fun _ _ _ _ same => same⟩

theorem TameValue.unknown (reason : UnknownReason) (detail : String) :
    TameValue fun _ => .unknown reason detail :=
  .const (ValueLattice.scalar_unknown reason detail)

theorem TameValue.getRegister (r : Option Nat) : TameValue fun s => s.getRegister r :=
  ⟨fun _ _ le => le (.reg r), fun _ scalar => scalar (.reg r), fun _ _ _ from' => from' (.reg r)⟩

theorem TameValue.getStack (k : StackKey) : TameValue fun s => s.getStack k :=
  ⟨fun _ _ le => le (.cell k), fun _ scalar => scalar (.cell k),
    fun _ _ _ from' => from' (.cell k)⟩

/-- The join of two tame values is tame. -/
theorem TameValue.join {v w : AbstractState → ValueLattice} (hv : TameValue v)
    (hw : TameValue w) : TameValue fun s => (v s).join (w s) := by
  constructor
  · intro s t le
    apply ValueLattice.le_join
    · exact (ValueLattice.join_le_left _ _).trans (hv.mono s t le)
    · exact (ValueLattice.join_le_right _ _).trans (hw.mono s t le)
  · intro s scalar
    exact (hv.scalar s scalar).join (hw.scalar s scalar)
  · intro e s t from' same
    -- a symbol that is joined to is on both sides
    have left := ValueLattice.join_le_left (v s) (w s)
    have right := ValueLattice.join_le_right (v s) (w s)
    rw [same] at left right
    rw [hv.carries e s t from' (ValueLattice.symbolic_le.mp left),
      hw.carries e s t from' (ValueLattice.symbolic_le.mp right)]
    simp [ValueLattice.join]

/-- A value that is passed on when it is unknown, and made into `f n`, or lost, when it is
an integer `n` or not. -/
theorem TameValue.arith {base : AbstractState → ValueLattice} (hb : TameValue base)
    (f : Int → ValueLattice) (scalar : ∀ n, (f n).Scalar) (stated : ∀ n e, f n ≠ .symbolic e) :
    TameValue fun s => match (base s).intOf with
      | none => if (base s).isKnown then .unknown' .unsupportedOperandShape else base s
      | some n => f n := by
  constructor
  · intro s t le
    have below := hb.mono s t le
    cases known : (base s).isKnown with
    | false =>
        rcases ValueLattice.isKnown_eq_false known with ⟨reason, detail, unknown⟩
        simp [unknown]
    | true =>
        cases int : (base s).intOf with
        | none =>
            simp only [if_true]
            exact ValueLattice.unknown_le _ _ _
        | some n =>
            rcases ValueLattice.intOf_eq_some int with ⟨kind, concrete⟩
            rw [concrete] at below
            rw [ValueLattice.concrete_le.mp below]
            exact le_refl _
  · intro s scalarState
    have base' := hb.scalar s scalarState
    split
    · split
      · exact ValueLattice.scalar_unknown _ _
      · exact base'
    · exact scalar _
  · intro e s t _ same
    split at same
    · split at same
      · cases same
      · rename_i unknown
        rw [same] at unknown
        exact (unknown rfl).elim
    · exact (stated _ e same).elim

section Tame

variable {K : Location → Prop} {f g : AbstractState → AbstractState}

theorem Tame.id : Tame K fun s => s :=
  ⟨fun _ _ le => le, fun _ scalar => scalar, fun _ _ tracked => Or.inl tracked,
    fun _ _ _ from' => from'⟩

/-- Tame functions compose. -/
theorem Tame.comp (hg : Tame K g) (hf : Tame K f) : Tame K fun s => g (f s) := by
  constructor
  · intro s t le
    exact hg.mono _ _ (hf.mono s t le)
  · intro s scalar
    exact hg.scalar _ (hf.scalar s scalar)
  · intro s l tracked
    rcases hg.tracks _ l tracked with inner | new
    · exact hf.tracks s l inner
    · exact Or.inr new
  · intro e s t from'
    exact hg.carries e _ _ (hf.carries e s t from')

/-- Entries may be created in a larger set. -/
theorem Tame.weaken {K' : Location → Prop} (hf : Tame K f) (sub : ∀ l, K l → K' l) :
    Tame K' f := by
  refine ⟨hf.mono, hf.scalar, ?_, hf.carries⟩
  intro s l tracked
  exact (hf.tracks s l tracked).imp_right (sub l)

/-- A fold of tame functions is tame. -/
theorem Tame.foldl {α : Type} {h : AbstractState → α → AbstractState} {xs : List α}
    (each : ∀ x ∈ xs, Tame K fun s => h s x) : Tame K fun s => xs.foldl h s := by
  induction xs with
  | nil => exact .id
  | cons x xs ih =>
      have rest := ih fun y member => each y (by simp [member])
      exact rest.comp (each x (by simp))

/-- Setting a register to a tame value is tame. -/
theorem Tame.setRegister {r : Option Nat} {v : AbstractState → ValueLattice} (hf : Tame K f)
    (hv : TameValue v) (inside : K (.reg r)) : Tame K fun s => (f s).setRegister r (v s) := by
  constructor
  · intro s t le l
    rw [read_setRegister, read_setRegister]
    split
    · exact hv.mono s t le
    · exact hf.mono s t le l
  · intro s scalar l
    rw [read_setRegister]
    split
    · exact hv.scalar s scalar
    · exact hf.scalar s scalar l
  · intro s l tracked
    rcases tracks_setRegister.mp tracked with rfl | tracked
    · exact Or.inr inside
    · exact hf.tracks s l tracked
  · intro e s t from' l
    rw [read_setRegister, read_setRegister]
    split
    · exact hv.carries e s t from'
    · exact hf.carries e s t from' l

/-- Setting a cell to a tame value is tame. -/
theorem Tame.setStack {k : StackKey} {v : AbstractState → ValueLattice} (hf : Tame K f)
    (hv : TameValue v) (inside : K (.cell k)) : Tame K fun s => (f s).setStack k (v s) := by
  constructor
  · intro s t le l
    rw [read_setStack, read_setStack]
    split
    · exact hv.mono s t le
    · exact hf.mono s t le l
  · intro s scalar l
    rw [read_setStack]
    split
    · exact hv.scalar s scalar
    · exact hf.scalar s scalar l
  · intro s l tracked
    rcases tracks_setStack.mp tracked with rfl | tracked
    · exact Or.inr inside
    · exact hf.tracks s l tracked
  · intro e s t from' l
    rw [read_setStack, read_setStack]
    split
    · exact hv.carries e s t from'
    · exact hf.carries e s t from' l

theorem Tame.invalidateRegister {r : Option Nat} (reason : UnknownReason)
    (inside : K (.reg r)) : Tame K fun s => s.invalidateRegister r reason :=
  Tame.id.setRegister (.unknown reason "") inside

/-- Giving up all cells is tame. -/
theorem Tame.setAllStack (reason : UnknownReason) (detail : String) :
    Tame K fun s => s.setAllStack (.unknown reason detail) := by
  constructor
  · intro s t le l
    cases l with
    | reg r => exact le (.reg r)
    | cell k =>
        rw [read_setAllStack_cell]
        split
        · exact ValueLattice.unknown_le _ _ _
        · exact ValueLattice.unknown_le _ _ _
  · intro s scalar l
    cases l with
    | reg r => exact scalar (.reg r)
    | cell k =>
        rw [read_setAllStack_cell]
        split
        · exact ValueLattice.scalar_unknown _ _
        · exact ValueLattice.scalar_unknown _ _
  · intro s l tracked
    exact Or.inl (tracks_setAllStack.mp tracked)
  · intro e s t from' l same
    cases l with
    | reg r => exact from' (.reg r) same
    | cell k =>
        rw [read_setAllStack_cell] at same
        split at same
        · cases same
        · cases same

end Tame

end AbstractState

/-! ## Where an instruction may create entries -/

namespace ForwardSymbolicEngine

variable (self : ForwardSymbolicEngine)

/-- The register an operand names, the parent of the view it writes, and the stack cell it
names. -/
def operandLocations (funcEa : Nat) (i : Instruction) (op : Operand) : List Location :=
  (if op.kind = .reg then
    .reg op.reg :: (if i.isWritten op.number then
      ((op.reg.bind (self.port.registerView · op.dtypeSize)).map fun view =>
        Location.reg (some view.parent)).toList
      else [])
    else []) ++
  ((self.stackKey op i.ea funcEa).map Location.cell).toList

/-- The locations that occur in an instruction; a call has the clobbered registers and the
return register. -/
def locationsOf (funcEa : Nat) (i : Instruction) : List Location :=
  (if i.isCall then
    (self.port.callClobberedRegisters ++ self.port.returnValueReg.toList).map (.reg <| some ·)
    else []) ++
  i.operands.flatMap (self.operandLocations funcEa i)

/-- `l` occurs in the instruction. -/
abbrev Occurs (funcEa : Nat) (i : Instruction) (l : Location) : Prop :=
  l ∈ self.locationsOf funcEa i

variable {self} {funcEa : Nat} {i : Instruction} {op : Operand}

theorem occurs_of_operand (member : op ∈ i.operands) {l : Location}
    (inside : l ∈ self.operandLocations funcEa i op) : self.Occurs funcEa i l :=
  List.mem_append_right _ (List.mem_flatMap.mpr ⟨op, member, inside⟩)

theorem occurs_reg (member : op ∈ i.operands) (reg : op.kind = .reg) :
    self.Occurs funcEa i (.reg op.reg) :=
  occurs_of_operand member (by simp [operandLocations, reg])

theorem occurs_parent (member : op ∈ i.operands) (reg : op.kind = .reg)
    (written : i.isWritten op.number) {view : RegisterView}
    (known : op.reg.bind (self.port.registerView · op.dtypeSize) = some view) :
    self.Occurs funcEa i (.reg (some view.parent)) :=
  occurs_of_operand member (by simp [operandLocations, reg, written, known])

theorem occurs_cell (member : op ∈ i.operands) {key : StackKey}
    (known : self.stackKey op i.ea funcEa = some key) : self.Occurs funcEa i (.cell key) :=
  occurs_of_operand member (by simp [operandLocations, known])

theorem occurs_call (call : i.isCall) {r : Nat}
    (changed : r ∈ self.port.callClobberedRegisters ∨ self.port.returnValueReg = some r) :
    self.Occurs funcEa i (.reg (some r)) := by
  have listed : r ∈ self.port.callClobberedRegisters ++ self.port.returnValueReg.toList := by
    rcases changed with clobbered | returned
    · exact List.mem_append_left _ clobbered
    · exact List.mem_append_right _ (by simp [returned])
  unfold Occurs locationsOf
  rw [if_pos call]
  exact List.mem_append_left _ (List.mem_map.mpr ⟨r, listed, rfl⟩)

/-! ## Every step is tame -/

open AbstractState

theorem invalidateWrittenRegisters_tame :
    Tame (self.Occurs funcEa i) (invalidateWrittenRegisters i) := by
  apply Tame.foldl
  intro op member
  by_cases written : op.kind = .reg ∧ i.isWritten op.number
  · simp only [if_pos written]
    exact .invalidateRegister _ (occurs_reg member written.1)
  · simp only [if_neg written]
    exact .id

theorem invalidatePartialRegisterWrites_tame :
    Tame (self.Occurs funcEa i) (self.invalidatePartialRegisterWrites i) := by
  apply Tame.foldl
  intro op member
  unfold invalidatePartial
  by_cases written : op.kind = .reg ∧ i.isWritten op.number
  · simp only [if_pos written]
    cases known : op.reg.bind (self.port.registerView · op.dtypeSize) with
    | none => exact .id
    | some view =>
        have parent : self.Occurs funcEa i (.reg (some view.parent)) :=
          occurs_parent member written.1 written.2 known
        dsimp only
        split
        · exact .id
        · split
          · exact (Tame.invalidateRegister _ (occurs_reg member written.1)).comp
              (.invalidateRegister _ parent)
          · exact .invalidateRegister _ parent
  · simp only [if_neg written]
    exact .id

theorem applyCall_tame (call : i.isCall) :
    Tame (self.Occurs funcEa i) (self.applyCall i) := by
  have clobbered : Tame (self.Occurs funcEa i) fun s => self.port.callClobberedRegisters.foldl
      (fun s reg => s.invalidateRegister (some reg) .indirectControlFlow) s := by
    apply Tame.foldl
    intro r member
    exact .invalidateRegister _ (occurs_call call (Or.inl member))
  unfold applyCall
  cases returned : self.port.returnValueReg with
  | none => exact clobbered
  | some r =>
      exact clobbered.setRegister (.const (ValueLattice.scalar_symbolic _))
        (occurs_call call (Or.inr returned))

theorem valueOfSource_tame (op : Option Operand) : TameValue (valueOfSource op) := by
  cases op with
  | none => exact .unknown _ _
  | some op =>
      unfold valueOfSource
      dsimp only
      split
      · exact .getRegister _
      · split
        · exact .const (ValueLattice.scalar_concrete _ _)
        · exact .unknown _ _

theorem applyMemoryStore_tame (member : op ∈ i.operands) :
    Tame (self.Occurs funcEa i) fun s => self.applyMemoryStore i op s funcEa := by
  unfold applyMemoryStore
  cases key : self.stackKey op i.ea funcEa with
  | none =>
      unfold invalidatePossiblyAliasedStack
      dsimp only
      split
      · exact .setAllStack _ _
      · exact .id
  | some key =>
      have inside := occurs_cell member key
      dsimp only
      split
      · exact Tame.id.setStack (valueOfSource_tame _) inside
      · exact Tame.id.setStack (.unknown _ _) inside

theorem applyMemoryLoad_tame :
    Tame (self.Occurs funcEa i) fun s => self.applyMemoryLoad i op s funcEa := by
  unfold applyMemoryLoad
  cases found : registerDestination i with
  | none => exact .id
  | some dst =>
      have member : dst ∈ i.operands := List.mem_of_find?_eq_some found
      have shape := List.find?_some found
      simp only [decide_eq_true_eq] at shape
      have inside : self.Occurs funcEa i (.reg dst.reg) := occurs_reg member shape.1
      dsimp only
      split
      · cases self.stackKey op i.ea funcEa with
        | none => exact .invalidateRegister _ inside
        | some key => exact Tame.id.setRegister (.getStack key) inside
      · exact .invalidateRegister _ inside

/-! ### Locators -/

theorem applyLocator_default {l : Locator} (inherits : l.applyForward = none) :
    applyLocator l i = invalidateWrittenRegisters i := by
  funext s
  simp [applyLocator, Locator.runForward, inherits]

/-- A locator with forward semantics that does not raise. -/
theorem applyLocator_ok {l : Locator} {f : ForwardTransfer} {g : AbstractState → AbstractState}
    (known : l.applyForward = some f) (ok : ∀ s, f i s = .ok (g s)) : applyLocator l i = g := by
  funext s
  simp [applyLocator, Locator.runForward, known, ok]

theorem withOperands_ok {s : AbstractState} {dst src : Operand}
    {f : Operand → Operand → Except AbstractState AbstractState} (h0 : i.operand 0 = some dst)
    (h1 : i.operand 1 = some src) : withOperands i s f = f dst src := by
  rw [withOperands, h0, h1]

section Locators

variable {dst src : Operand} (h0 : i.operand 0 = some dst) (h1 : i.operand 1 = some src)
include h0 h1

theorem applyLocator_movRegReg :
    applyLocator movRegReg i = fun s => s.setRegister dst.reg (s.getRegister src.reg) :=
  applyLocator_ok rfl fun _ => withOperands_ok h0 h1

theorem applyLocator_movRegImm :
    applyLocator movRegImm i =
      fun s => s.setRegister dst.reg (.concrete (.ofOption src.immValue) .int) :=
  applyLocator_ok rfl fun _ => withOperands_ok h0 h1

theorem applyLocator_leaRegAddr :
    applyLocator leaRegAddr i =
      fun s => s.setRegister dst.reg (.concrete (.ofOption src.addr) .pointer) :=
  applyLocator_ok rfl fun _ => withOperands_ok h0 h1

theorem applyLocator_xchgRegReg :
    applyLocator xchgRegReg i = fun s =>
      (s.setRegister dst.reg (s.getRegister src.reg)).setRegister src.reg (s.getRegister dst.reg) :=
  applyLocator_ok rfl fun _ => withOperands_ok h0 h1

theorem applyLocator_cmovRegReg :
    applyLocator cmovRegReg i = fun s =>
      s.setRegister dst.reg ((s.getRegister dst.reg).join (s.getRegister src.reg)) :=
  applyLocator_ok rfl fun _ => withOperands_ok h0 h1

theorem applyLocator_leaRegDispl
    (shape : (src.kind = .memDispl ∨ src.kind = .memPhrase) ∧ src.reg.isSome) :
    applyLocator leaRegDispl i = fun s =>
      s.setRegister dst.reg (leaValue (s.getRegister src.reg) src.disp dst.dtypeSize) := by
  refine applyLocator_ok rfl fun s => ?_
  rw [withOperands_ok h0 h1, if_pos shape]

/-- What `add`/`sub` makes of the prior value of its register in a forward walk. -/
def forwardAddSub (prior : ValueLattice) (delta : Int) (size : Nat) : ValueLattice :=
  match prior.intOf with
  | none => if prior.isKnown then .unknown' .unsupportedOperandShape else prior
  | some n => .concrete (.int (wrapToWidth (n + delta) size)) .int

theorem applyLocator_addSubRegImm {delta : Int} (amount : addSubDelta i src = some delta) :
    applyLocator addSubRegImm i = fun s =>
      s.setRegister dst.reg (forwardAddSub (s.getRegister dst.reg) delta dst.dtypeSize) := by
  refine applyLocator_ok rfl fun s => ?_
  rw [withOperands_ok h0 h1]
  dsimp only
  unfold forwardAddSub
  cases (s.getRegister dst.reg).intOf with
  | none => rfl
  | some n => rw [amount]

omit h1 in
theorem applyLocator_zeroIdiom :
    applyLocator zeroIdiom i = fun s => s.setRegister dst.reg (.concrete (.int 0) .int) := by
  refine applyLocator_ok rfl fun s => ?_
  rw [h0]

end Locators

/-- The locators that do not define forward semantics. -/
theorem inherits_or_defines {l : Locator} (builtin : l ∈ builtins) :
    l.applyForward = none ∨ l ∈ [zeroIdiom, movRegReg, movRegImm, leaRegAddr, xchgRegReg,
      cmovRegReg, leaRegDispl, addSubRegImm] := by
  simp only [builtins, List.mem_cons, List.not_mem_nil, or_false] at builtin
  rcases builtin with rfl | rfl | rfl | rfl | rfl | rfl | rfl | rfl | rfl | rfl | rfl | rfl | rfl
  all_goals first
    | exact Or.inl rfl
    | exact Or.inr (by simp)

/-- An accepted instruction has a register as operand 0, and an operand 1. -/
theorem operands_of_accepts {l : Locator} (forward : l ∈ [zeroIdiom, movRegReg, movRegImm,
      leaRegAddr, xchgRegReg, cmovRegReg, leaRegDispl, addSubRegImm])
    (accepted : l.accepts i = some true) :
    ∃ dst src, i.operand 0 = some dst ∧ i.operand 1 = some src ∧ dst.kind = .reg := by
  have ofPair {mnems : List String} {shape : Operand → Operand → Bool}
      (holds : acceptsPair mnems shape i = some true)
      (reg : ∀ dst src, shape dst src = true → dst.kind = .reg) :
      ∃ dst src, i.operand 0 = some dst ∧ i.operand 1 = some src ∧ dst.kind = .reg := by
    rcases acceptsPair_eq_true.mp holds with ⟨_, dst, src, h0, h1, shaped⟩
    exact ⟨dst, src, h0, h1, reg dst src shaped⟩
  simp only [List.mem_cons, List.not_mem_nil, or_false] at forward
  rcases forward with rfl | rfl | rfl | rfl | rfl | rfl | rfl | rfl
  case inr.inr.inr.inr.inr.inl =>
    simp only [cmovRegReg] at accepted
    split at accepted
    · cases h0 : i.operand 0 with
      | none => simp [h0] at accepted
      | some dst =>
          cases h1 : i.operand 1 with
          | none => simp [h0, h1] at accepted
          | some src => exact ⟨dst, src, rfl, rfl, by simpa [h0, h1] using accepted⟩
    · cases accepted
  all_goals
    apply ofPair accepted
    intro dst src shaped
    simp only [decide_eq_true_eq] at shaped
    exact shaped.1

theorem applyLocator_tame {l : Locator} (builtin : l ∈ builtins)
    (accepted : l.accepts i = some true) : Tame (self.Occurs funcEa i) (applyLocator l i) := by
  rcases inherits_or_defines builtin with inherits | forward
  · rw [applyLocator_default inherits]
    exact invalidateWrittenRegisters_tame
  · rcases operands_of_accepts forward accepted with ⟨dst, src, h0, h1, reg⟩
    have inside : self.Occurs funcEa i (.reg dst.reg) :=
      occurs_reg (Instruction.operand_mem h0) reg
    have set {v : AbstractState → ValueLattice} (tame : TameValue v) :
        Tame (self.Occurs funcEa i) fun s => s.setRegister dst.reg (v s) :=
      Tame.id.setRegister tame inside
    simp only [List.mem_cons, List.not_mem_nil, or_false] at forward
    rcases forward with rfl | rfl | rfl | rfl | rfl | rfl | rfl | rfl
    · rw [applyLocator_zeroIdiom h0]
      exact set (.const (ValueLattice.scalar_concrete _ _))
    · rw [applyLocator_movRegReg h0 h1]
      exact set (.getRegister _)
    · rw [applyLocator_movRegImm h0 h1]
      exact set (.const (ValueLattice.scalar_concrete _ _))
    · rw [applyLocator_leaRegAddr h0 h1]
      exact set (.const (ValueLattice.scalar_concrete _ _))
    · rw [applyLocator_xchgRegReg h0 h1]
      rcases acceptsPair_eq_true.mp accepted with ⟨_, a, b, g0, g1, shape⟩
      simp only [decide_eq_true_eq] at shape
      have same : b = src := Option.some.inj (g1.symm.trans h1)
      subst same
      exact (set (.getRegister _)).setRegister (.getRegister _)
        (occurs_reg (Instruction.operand_mem g1) shape.2)
    · rw [applyLocator_cmovRegReg h0 h1]
      exact set ((TameValue.getRegister _).join (.getRegister _))
    · rcases acceptsPair_eq_true.mp accepted with ⟨_, a, b, g0, g1, shape⟩
      simp only [decide_eq_true_eq] at shape
      have same : b = src := Option.some.inj (g1.symm.trans h1)
      subst same
      rw [applyLocator_leaRegDispl h0 h1 ⟨shape.2.1, shape.2.2.1⟩]
      exact set ((TameValue.getRegister _).arith _ (fun _ => ValueLattice.scalar_concrete _ _)
        fun _ _ same => by cases same)
    · rcases acceptsPair_eq_true.mp accepted with ⟨_, a, b, g0, g1, shape⟩
      simp only [decide_eq_true_eq] at shape
      rcases Operand.exists_imm shape.2 with ⟨n, imm⟩
      have same : b = src := Option.some.inj (g1.symm.trans h1)
      subst same
      have amount : addSubDelta i b = some (if i.mnem = "add" then n else -n) := by
        rw [addSubDelta, imm, Option.map_some]
      rw [applyLocator_addSubRegImm h0 h1 amount]
      exact set ((TameValue.getRegister _).arith _ (fun _ => ValueLattice.scalar_concrete _ _)
        fun _ _ same => by cases same)

theorem transferByShape_tame (builtin : self.registry = defaultRegistry) :
    Tame (self.Occurs funcEa i) fun s => self.transferByShape i s funcEa := by
  unfold transferByShape
  cases written : memoryOperand i true with
  | some dst =>
      have member : dst ∈ i.operands :=
        List.mem_of_mem_filter (List.mem_of_getLast? written)
      exact applyMemoryStore_tame member
  | none =>
      cases memoryOperand i false with
      | some src => exact applyMemoryLoad_tame
      | none =>
          cases found : self.registry.findMatch i with
          | none => exact invalidateWrittenRegisters_tame
          | some l =>
              have member := LocatorRegistry.findMatch_mem found
              rw [builtin, defaultRegistry_all] at member
              exact applyLocator_tame member (LocatorRegistry.findMatch_accepts found)

/-- Every step of the engine with the built-in locators is tame. -/
theorem step_tame (builtin : self.registry = defaultRegistry) (funcEa : Nat) (i : Instruction) :
    Tame (self.Occurs funcEa i) fun s => self.step i s funcEa := by
  have transfer : Tame (self.Occurs funcEa i) fun s => self.stepTransfer i s funcEa := by
    unfold stepTransfer
    by_cases call : i.isCall
    · simp only [if_pos call]
      exact applyCall_tame call
    · simp only [if_neg call]
      cases found : self.registry.findMatch i with
      | none => exact transferByShape_tame builtin
      | some l =>
          have member := LocatorRegistry.findMatch_mem found
          rw [builtin, defaultRegistry_all] at member
          dsimp only
          split
          · exact applyLocator_tame member (LocatorRegistry.findMatch_accepts found)
          · exact transferByShape_tame builtin
  exact invalidatePartialRegisterWrites_tame.comp transfer

end ForwardSymbolicEngine

end IDAnalysister
