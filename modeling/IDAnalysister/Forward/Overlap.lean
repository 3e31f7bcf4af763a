import IDAnalysister.Backward.Overlap
import IDAnalysister.Forward.Clobbers
import IDAnalysister.Library.Numbered

/-!
# Overlapping stores in the frame of a block

What `_simulate_block` leaves in a register that was last loaded from the frame. The stack
dictionary keys a cell by its displacement alone, so a load reads what was last stored at
its own displacement, whatever the two sizes and whatever was stored to neighbouring bytes.
`load_answers_hold_iff` says which rows of stores and loads make every loaded register right.
-/

namespace IDAnalysister

open Bytes

/-! ## Stores and loads -/

/-- A store of a number to a cell of the frame, or a load of a cell into a register. -/
abbrev FrameStep := Numbered (Cell Int) (Nat × Cell Int)

/-- The step loads the register. -/
def FrameStep.LoadsTo (r : Nat) : FrameStep → Prop
  | .store _ _ => False
  | .other (q, _) => q = r

/-- `mov r, [fp+disp]`. The frame stays where it is: the load writes no part of the frame
pointer. -/
structure FrameLoad (port : IdaPort) (i : Instruction) (fp r : Nat) (c : Cell Int) : Prop where
  mnem : i.mnem = "mov"
  operands : ∃ a b, Pair i a b true false ∧ a.kind = .reg ∧ a.reg = some r ∧
    a.dtypeSize = c.size ∧ (b.kind = .memDispl ∨ b.kind = .memPhrase) ∧ b.reg = some fp ∧
    b.disp = c.addr ∧ b.dtypeSize = c.size ∧ b.hasIndex = false ∧ b.hasSegment = false
  pure : i.isPureDefinitionOf 0
  other : r ≠ fp
  apart : ∀ view whole, port.registerView r c.size = some view →
    port.registerView fp 0 = some whole → view.parent ≠ whole.parent

/-- The instruction makes the step on the frame. -/
inductive FrameForm (port : IdaPort) (fp : Nat) (i : Instruction) : FrameStep → Prop
  | store {c : Cell Int} {n : Nat} :
    BaseStore i fp c.addr c.size n → i.isPureDefinitionOf 0 → FrameForm port fp i (.store c n)
  | load {r : Nat} {c : Cell Int} : FrameLoad port i fp r c → FrameForm port fp i (.other (r, c))

/-- The instructions make the steps. -/
def FrameRow (port : IdaPort) (fp : Nat) (is : List Instruction) (steps : List FrameStep) : Prop :=
  List.Forall₂ (FrameForm port fp) is steps

/-- Whatever fitting numbers are stored, and from any state without a tracked cell and any
content of the frame, a register that holds something concrete after the block holds what
the bytes of its last load were at that load. -/
def LoadAnswersHold (layout : List FrameStep) : Prop :=
  ∀ (self : ForwardSymbolicEngine) (fp funcEa : Nat) (block : BasicBlockInfo)
    (is : List Instruction) (before after : List FrameStep) (r : Nat) (c : Cell Int),
    self.registry = defaultRegistry → self.port.framePointerReg = some fp →
    self.port.stackPointerReg ≠ some fp → Tiles block.startEa is block.endEa →
    (∀ i ∈ is, self.port.decodeAt i.ea = some i) →
    FrameRow self.port fp is (before ++ .other (r, c) :: after) →
    Numbered.SameLayout (before ++ .other (r, c) :: after) layout →
    Fitting (Numbered.stores before) → (∀ step ∈ after, ¬ FrameStep.LoadsTo r step) →
    ∀ (bound used used' : Nat) (s s' : AbstractState), (∀ k, ¬ s.Tracks (.cell k)) →
      self.simulateBlock bound funcEa block s used = some (s', used', false) →
      ∀ (m : Memory Int) (d : Datum) (k : ValueKind),
        s'.getRegister (some r) = .concrete d k →
          d = .int (read (storeAll (Numbered.stores before) m) c.addr c.size)

/-! ## What the steps do to the state -/

namespace ForwardSymbolicEngine

open AbstractState

variable {self : ForwardSymbolicEngine} {i : Instruction} {fp funcEa : Nat} {s : AbstractState}

/-- Partial writes concern registers only. -/
theorem getStack_invalidatePartialRegisterWrites (k : StackKey) :
    (self.invalidatePartialRegisterWrites i s).getStack k = s.getStack k := by
  apply read_foldl (.cell k)
  intro op _ t
  unfold invalidatePartial
  split
  · split
    · rfl
    · split
      · rfl
      · split <;> rfl
  · rfl

theorem stackKey_frame {op : Operand} (kind : op.kind = .memDispl ∨ op.kind = .memPhrase)
    (reg : op.reg = some fp) (noIndex : op.hasIndex = false) (noSegment : op.hasSegment = false)
    (frame : self.port.framePointerReg = some fp) (notSp : self.port.stackPointerReg ≠ some fp)
    (ea : Nat) : self.stackKey op ea funcEa = some (.fp op.disp) := by
  simp [stackKey, kind, reg, noIndex, noSegment, frame, notSp]

section Accesses

variable {l : Locator} {k : StackKey} {a b : Operand}

/-- A move to a tracked cell leaves its source there. -/
theorem stepTransfer_store (notCall : i.isCall = false)
    (matched : self.registry.findMatch i = some l) (inherits : l.applyForward = none)
    (pair : Pair i a b true false) (memory : a.isMemory = true)
    (key : self.stackKey a i.ea funcEa = some k) (pure' : i.isPureDefinitionOf 0) :
    self.stepTransfer i s funcEa = s.setStack k (valueOfSource (some b) s) := by
  have written : memoryOperand i true = some a := by
    simp [memoryOperand, pair.operands, memory, pair.first, pair.flagA, pair.second, pair.flagB,
      List.filter]
  have source : otherOperand i a = some b := by
    simp [otherOperand, pair.operands, pair.first, pair.second]
  rw [stepTransfer_shape notCall matched inherits, transferByShape, written]
  simp [applyMemoryStore, key, pair.first, pure', source]

/-- A move from a tracked cell takes what stands there. -/
theorem stepTransfer_load (notCall : i.isCall = false)
    (matched : self.registry.findMatch i = some l) (inherits : l.applyForward = none)
    (pair : Pair i a b true false) (dest : a.kind = .reg) (memory : b.isMemory = true)
    (key : self.stackKey b i.ea funcEa = some k) (pure' : i.isPureDefinitionOf 0) :
    self.stepTransfer i s funcEa = s.setRegister a.reg (s.getStack k) := by
  rw [stepTransfer_fromMemory notCall matched inherits pair dest memory, applyMemoryLoad,
    registerDestination_pair pair dest]
  simp [pair.first, pure', key]

end Accesses

/-- A store leaves its immediate at its displacement. -/
theorem step_store (builtin : self.registry = defaultRegistry)
    (frame : self.port.framePointerReg = some fp) (notSp : self.port.stackPointerReg ≠ some fp)
    {disp : Int} {size n : Nat} (store : BaseStore i fp disp size n)
    (pure' : i.isPureDefinitionOf 0) :
    self.step i s funcEa = s.setStack (.fp disp) (.concrete (.int n) .int) := by
  rcases store.operands with ⟨a, b, pair, kind, reg, rfl, -, noIndex, noSegment, hb, imm⟩
  have memory : a.isMemory = true := by
    rcases kind with kind | kind <;> simp [Operand.isMemory, kind]
  have notReg := Operand.kind_ne_reg_of_isMemory memory
  have matched := findMatch_movMemImm store.mnem pair memory hb
  rw [← builtin] at matched
  have notCall : i.isCall = false := not_isCall_of_mnem store.mnem (by decide)
  have key : self.stackKey a i.ea funcEa = some (.fp a.disp) :=
    stackKey_frame kind reg noIndex noSegment frame notSp i.ea
  have source : valueOfSource (some b) s = .concrete (.int n) .int := by
    simp [valueOfSource, hb, imm, Datum.ofOption]
  rw [step, stepTransfer_store notCall matched rfl pair memory key pure', source,
    invalidatePartialRegisterWrites, pair.operands]
  simp [invalidatePartial, notReg, pair.second, pair.flagB]

/-- A load takes what stands at its displacement. -/
theorem step_load (builtin : self.registry = defaultRegistry)
    (frame : self.port.framePointerReg = some fp) (notSp : self.port.stackPointerReg ≠ some fp)
    {r : Nat} {c : Cell Int} (load : FrameLoad self.port i fp r c) :
    self.step i s funcEa = self.invalidatePartialRegisterWrites i
      (s.setRegister (some r) (s.getStack (.fp c.addr))) := by
  rcases load.operands with ⟨a, b, pair, ha, hr, -, kind, base, disp, -, noIndex, noSegment⟩
  have memory : b.isMemory = true := by
    rcases kind with kind | kind <;> simp [Operand.isMemory, kind]
  have matched := findMatch_movRegMem load.mnem pair ha memory
  rw [← builtin] at matched
  have notCall : i.isCall = false := not_isCall_of_mnem load.mnem (by decide)
  have key : self.stackKey b i.ea funcEa = some (.fp b.disp) :=
    stackKey_frame kind base noIndex noSegment frame notSp i.ea
  rw [step, stepTransfer_load notCall matched rfl pair ha memory key load.pure, hr, disp]

end ForwardSymbolicEngine

/-! ## Rows of steps -/

section Row

variable {self : ForwardSymbolicEngine} {fp funcEa r : Nat} {c : Cell Int} {n : Nat} {disp : Int}
variable {is : List Instruction} {steps before after : List FrameStep}

/-- A cell that no store of the row names stays as it is. -/
theorem FrameRow.cell_kept (builtin : self.registry = defaultRegistry)
    (frame : self.port.framePointerReg = some fp) (notSp : self.port.stackPointerReg ≠ some fp)
    (row : FrameRow self.port fp is steps)
    (other : ∀ t ∈ Numbered.stores steps, t.1.addr ≠ disp) (s : AbstractState) :
    (self.runSteps funcEa is s).getStack (.fp disp) = s.getStack (.fp disp) := by
  induction row generalizing s with
  | nil => rfl
  | cons form _ ih =>
      rw [ForwardSymbolicEngine.runSteps_cons]
      cases form with
      | @store c n store pure' =>
          have elsewhere : disp ≠ c.addr := (other (c, n) List.mem_cons_self).symm
          rw [ih fun t member => other t (List.mem_cons_of_mem _ member)]
          rw [ForwardSymbolicEngine.step_store builtin frame notSp store pure']
          have kept := AbstractState.read_setStack s (.fp c.addr) (.concrete (.int n) .int)
            (.cell (.fp disp))
          rwa [if_neg (by simpa using elsewhere)] at kept
      | load load =>
          rw [ih other, ForwardSymbolicEngine.step_load builtin frame notSp load,
            ForwardSymbolicEngine.getStack_invalidatePartialRegisterWrites]
          rfl

/-- A cell holds what the last store that names it has stored. -/
theorem FrameRow.cell_last (builtin : self.registry = defaultRegistry)
    (frame : self.port.framePointerReg = some fp) (notSp : self.port.stackPointerReg ≠ some fp)
    (row : FrameRow self.port fp is (before ++ .store c n :: after))
    (other : ∀ t ∈ Numbered.stores after, t.1.addr ≠ c.addr) (s : AbstractState) :
    (self.runSteps funcEa is s).getStack (.fp c.addr) = .concrete (.int n) .int := by
  rcases forall₂_split row with ⟨pre, i, post, rfl, -, form, rest⟩
  rw [ForwardSymbolicEngine.runSteps_append, ForwardSymbolicEngine.runSteps_cons,
    FrameRow.cell_kept builtin frame notSp rest other]
  cases form with
  | store store pure' =>
      rw [ForwardSymbolicEngine.step_store builtin frame notSp store pure']
      have stored := AbstractState.read_setStack (self.runSteps funcEa pre s) (.fp c.addr)
        (.concrete (.int n) .int) (.cell (.fp c.addr))
      rwa [if_pos rfl] at stored

section Register

-- how a value may fare where partial writes are invalidated
variable {K : ValueLattice → ValueLattice → Prop} (refl : ∀ x, K x x)
  (trans : ∀ x y z, K x y → K y z → K x z)
  (partially : ∀ i (s : AbstractState) l,
    K (s.read l) ((self.invalidatePartialRegisterWrites i s).read l))

include refl trans partially

theorem FrameRow.register_kept (builtin : self.registry = defaultRegistry)
    (frame : self.port.framePointerReg = some fp) (notSp : self.port.stackPointerReg ≠ some fp)
    (row : FrameRow self.port fp is steps) (other : ∀ step ∈ steps, ¬ FrameStep.LoadsTo r step)
    (funcEa : Nat) (s : AbstractState) :
    K (s.getRegister (some r)) ((self.runSteps funcEa is s).getRegister (some r)) := by
  induction row generalizing s with
  | nil => exact refl _
  | @cons i step is steps form _ ih =>
      have later := ih (fun t member => other t (List.mem_cons_of_mem _ member))
        (self.step i s funcEa)
      rw [ForwardSymbolicEngine.runSteps_cons]
      cases form with
      | store store pure' =>
          rw [ForwardSymbolicEngine.step_store builtin frame notSp store pure'] at later ⊢
          exact later
      | @load q c load =>
          have different : q ≠ r := other _ List.mem_cons_self
          have loaded := AbstractState.read_setRegister s (some q) (s.getStack (.fp c.addr))
            (.reg (some r))
          rw [if_neg (by simpa using different.symm)] at loaded
          have here := partially i (s.setRegister (some q) (s.getStack (.fp c.addr)))
            (.reg (some r))
          rw [loaded, ← ForwardSymbolicEngine.step_load builtin frame notSp load] at here
          exact trans _ _ _ here later

/-- A register fares as the cell that it was last loaded from. -/
theorem FrameRow.register_loaded (builtin : self.registry = defaultRegistry)
    (frame : self.port.framePointerReg = some fp) (notSp : self.port.stackPointerReg ≠ some fp)
    (row : FrameRow self.port fp is (before ++ .other (r, c) :: after))
    (other : ∀ step ∈ after, ¬ FrameStep.LoadsTo r step) (funcEa : Nat) (s : AbstractState) :
    ∃ js, FrameRow self.port fp js before ∧
      K ((self.runSteps funcEa js s).getStack (.fp c.addr))
        ((self.runSteps funcEa is s).getRegister (some r)) := by
  rcases forall₂_split row with ⟨pre, i, post, rfl, early, form, rest⟩
  refine ⟨pre, early, ?_⟩
  rw [ForwardSymbolicEngine.runSteps_append, ForwardSymbolicEngine.runSteps_cons]
  have later := FrameRow.register_kept refl trans partially builtin frame notSp rest other funcEa
    (self.step i (self.runSteps funcEa pre s) funcEa)
  cases form with
  | load load =>
      have here := partially i ((self.runSteps funcEa pre s).setRegister (some r)
        ((self.runSteps funcEa pre s).getStack (.fp c.addr))) (.reg (some r))
      rw [AbstractState.read_setRegister, if_pos rfl,
        ← ForwardSymbolicEngine.step_load builtin frame notSp load] at here
      exact trans _ _ _ here later

end Register

end Row

/-! ## Layouts whose loads are right -/

/-- The step as an instruction at a given address, on the frame of `fp`. -/
def frameStepAt (fp : Nat) : FrameStep → Nat → Instruction
  | .store c n, ea => storeTo fp (c, n) ea
  | .other (r, c), ea =>
      FakeIdaPort.insn ea "mov" 1
        [FakeIdaPort.reg 0 r c.size, FakeIdaPort.memDispl 1 fp c.addr c.size]

/-- The registers that a row loads. -/
def loadedRegisters (steps : List FrameStep) : List Nat :=
  steps.filterMap fun
    | .store _ _ => none
    | .other (r, _) => some r

theorem frameStepAt_form {port : IdaPort} (blank : ∀ q size, port.registerView q size = none)
    {fp : Nat} {step : FrameStep} (apart : ¬ FrameStep.LoadsTo fp step) (ea : Nat) :
    FrameForm port fp (frameStepAt fp step ea) step := by
  cases step with
  | store c n => exact .store (storeTo_store fp (c, n) ea) rfl
  | other load =>
      rcases load with ⟨r, c⟩
      apply FrameForm.load
      constructor
      · rfl
      · exact ⟨_, _, ⟨rfl, rfl, rfl, rfl, rfl⟩, rfl, rfl, rfl, Or.inl rfl, rfl, rfl, rfl, rfl, rfl⟩
      · rfl
      · exact apart
      · intro view _ known
        rw [blank] at known
        cases known

theorem frameStepAt_unitSized (fp : Nat) (steps : List FrameStep) :
    UnitSized (steps.map (frameStepAt fp)) := by
  intro f member ea
  rcases List.mem_map.mp member with ⟨step, -, rfl⟩
  cases step <;> exact ⟨rfl, rfl⟩

/-- Some register is loaded nowhere. -/
theorem exists_unloaded (steps : List FrameStep) :
    ∃ fp, ∀ step ∈ steps, ¬ FrameStep.LoadsTo fp step := by
  rcases Infinite.exists_notMem_finset (loadedRegisters steps).toFinset with ⟨fp, fresh⟩
  refine ⟨fp, ?_⟩
  intro step member loads
  apply fresh
  rw [List.mem_toFinset, loadedRegisters, List.mem_filterMap]
  refine ⟨step, member, ?_⟩
  cases step with
  | store c n => cases loads
  | other load =>
      cases loads
      rfl

section Layout

variable {before after : List FrameStep} {r : Nat} {c : Cell Int}

/-- On a machine without partial writes the loaded register has the number of the last store
at the displacement. -/
theorem exists_loaded {early late : List FrameStep} {d : Cell Int} {n : Nat}
    (here : d.addr = c.addr) (other : ∀ t ∈ Numbered.stores late, t.1.addr ≠ c.addr)
    (last : ∀ step ∈ after, ¬ FrameStep.LoadsTo r step)
    (holds : LoadAnswersHold ((early ++ .store d n :: late) ++ .other (r, c) :: after))
    (fitting : Fitting (Numbered.stores (early ++ .store d n :: late))) (m : Memory Int) :
    read (storeAll (Numbered.stores (early ++ .store d n :: late)) m) c.addr c.size = n := by
  let steps := (early ++ .store d n :: late) ++ .other (r, c) :: after
  rcases exists_unloaded steps with ⟨fp, fresh⟩
  let is := layOut 0 (steps.map (frameStepAt fp))
  have tiles : Tiles 0 is (0 + (steps.map (frameStepAt fp)).length) :=
    layOut_tiles (frameStepAt_unitSized fp steps) 0
  let self : ForwardSymbolicEngine :=
    { port := { blankPort with
        framePointerReg := some fp
        decodeAt := fun ea => is.find? (·.ea = ea) }
      registry := defaultRegistry
      maxInstructions := none }
  have decoded : ∀ i ∈ is, self.port.decodeAt i.ea = some i := fun i member => tiles.find_eq member
  have row : FrameRow self.port fp is steps :=
    forall₂_layOut (fun step member => frameStepAt_form (fun _ _ => rfl) (fresh step member)) 0
  have notSp : self.port.stackPointerReg ≠ some fp := by
    intro same
    cases same
  have sweep := tiles.sweep decoded (Nat.le_refl _)
  rw [tiles.before_end] at sweep
  rcases ForwardSymbolicEngine.exists_simulate_sweep sweep 0 rfl 0 .empty with ⟨bound, simulated⟩
  have untracked : ∀ k, ¬ AbstractState.empty.Tracks (.cell k) := by
    intro k tracked
    simp [AbstractState.Tracks, AbstractState.empty] at tracked
  -- no write is partial, so the register has what the cell had
  have whole : ∀ i (s : AbstractState) l,
      s.read l = (self.invalidatePartialRegisterWrites i s).read l := by
    intro i s l
    have same : self.invalidatePartialRegisterWrites i s = s := by
      rw [ForwardSymbolicEngine.invalidatePartialRegisterWrites]
      apply List.foldl_fixed'
      intro op
      rw [ForwardSymbolicEngine.invalidatePartial]
      split
      · cases op.reg <;> rfl
      · rfl
    rw [same]
  rcases FrameRow.register_loaded (K := Eq) (fun _ => rfl) (fun _ _ _ => Eq.trans) whole rfl rfl
    notSp row last 0 .empty with ⟨js, early', loaded⟩
  rw [← here] at loaded other
  rw [FrameRow.cell_last rfl rfl notSp early' other] at loaded
  have value := holds self fp 0 ⟨0, _, [], []⟩ is _ after r c rfl rfl notSp tiles decoded row rfl
    fitting last bound 0 _ .empty _ untracked simulated m _ _ loaded.symm
  exact (Int.ofNat.inj (Datum.int.inj value)).symm

end Layout

/-- Every value that a block of stores and loads leaves in a loaded register is right if and
only if at each register's last load the last store at that very displacement, where there is
one, had the loaded size and no later store had overlapped it. -/
theorem load_answers_hold_iff (layout : List FrameStep) :
    LoadAnswersHold layout ↔ ∀ before r c after, layout = before ++ .other (r, c) :: after →
      (∀ step ∈ after, ¬ FrameStep.LoadsTo r step) →
        LastStoreIntact ((Numbered.stores before).map Prod.fst) c.addr c.size := by
  constructor
  · intro holds before r c after split last
    apply LastStoreIntact.of_readsBack
    intro cells d cells' cut here other m pre post v same same' fitting
    have all : (pre ++ (d, v) :: post).map Prod.fst = (Numbered.stores before).map Prod.fst := by
      rw [List.map_append, List.map_cons, same, same', cut]
    rcases Numbered.exists_around all with ⟨early, late, alike, stored, behind⟩
    have other' : ∀ t ∈ Numbered.stores late, t.1.addr ≠ c.addr := by
      intro t member
      apply other
      rw [← same', ← behind]
      exact List.mem_map_of_mem member
    rw [← stored] at fitting ⊢
    apply exists_loaded here other' last _ fitting
    intro self fp funcEa block is before' after' r' c' builtin frame notSp tiles decoded row same''
    have layout' : Numbered.SameLayout (before' ++ .other (r', c') :: after') layout := by
      rw [split]
      exact same''.trans (alike.append rfl)
    exact holds self fp funcEa block is before' after' r' c' builtin frame notSp tiles decoded row
      layout'
  · intro right self fp funcEa block is before after r c builtin frame notSp tiles decoded row same
      fitting last bound used used' s s' untracked simulated m d k answered
    rcases self.simulate_eq_runSteps simulated with ⟨js, sweep, rfl⟩
    have sweep' := tiles.sweep decoded (Nat.le_refl _)
    rw [tiles.before_end] at sweep'
    rw [sweep.unique sweep'] at answered
    rcases FrameRow.register_loaded (K := Kept none) (fun _ => .refl)
      (fun _ _ _ => .trans)
      (fun _ _ _ => ForwardSymbolicEngine.kept_invalidatePartialRegisterWrites)
      builtin frame notSp row last funcEa s with ⟨pre, early, kept | vague⟩
    · rw [kept] at answered
      rcases same.split_other with ⟨before', after', rfl, alike, alike'⟩
      have last' : ∀ step ∈ after', ¬ FrameStep.LoadsTo r step := by
        apply alike'.forall_congr _ last
        intro x
        cases x <;> rfl
      have intact := right before' r c after' rfl last'
      rcases ConsistentCfg.exists_last (fun t : Cell Int × Nat => t.1.addr = c.addr)
        (Numbered.stores before) with none | ⟨stores, ⟨e, n⟩, stores', cut, here, other⟩
      · rw [FrameRow.cell_kept builtin frame notSp early none] at answered
        have unknown := AbstractState.read_of_not_tracks (untracked (.fp c.addr))
        rw [AbstractState.read] at unknown
        rw [unknown] at answered
        cases answered
      · rw [← alike.places, cut] at intact
        rw [cut] at fitting ⊢
        rcases Numbered.stores_split cut with ⟨steps, steps', rfl, -, rfl⟩
        rw [← here] at answered other
        rw [FrameRow.cell_last builtin frame notSp early other] at answered
        cases answered
        rw [← here] at intact ⊢
        rw [intact.read_eq fitting other]
    · exact (vague.notConcrete d k answered).elim

/-! ## A byte written into a word -/

namespace ByteInFrame

def fake : FakeIdaPort where
  pointerSize := 4
  instructions := [
    FakeIdaPort.insn 0x401000 "mov" 7 [FakeIdaPort.memDispl 0 5 (-8), FakeIdaPort.imm 1 1],
    FakeIdaPort.insn 0x401007 "mov" 4 [FakeIdaPort.memDispl 0 5 (-7) 1, FakeIdaPort.imm 1 2 1],
    FakeIdaPort.insn 0x40100b "mov" 3 [FakeIdaPort.reg 0 0, FakeIdaPort.memDispl 1 5 (-8)]]
  funcBounds := [(0x401000, 0x40100e)]

def engine : ForwardSymbolicEngine where
  port := fake.toPort
  registry := defaultRegistry

/-- The register has the first store, although the second has changed its second byte. -/
theorem word_loaded_stale :
    (engine.simulateBlock 3 0x401000 ⟨0x401000, 0x40100e, [], []⟩ .empty 0).map
        (fun out => out.1.getRegister (some 0)) = some (.concrete (.int 1) .int) ∧
      read (storeAll [(⟨-8, 4⟩, 1), (⟨-7, 1⟩, 2)] (0 : Memory Int)) (-8) 4 = 0x201 := by
  decide

end ByteInFrame

end IDAnalysister
