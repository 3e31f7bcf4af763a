import IDAnalysister.Adapters.FakePort
import IDAnalysister.Backward.Refusal
import IDAnalysister.Backward.Straight
import IDAnalysister.Library.Bytes

/-!
# Overlapping stores in a frame

What `resolve_memory` reports for a frame cell after stores of immediates to the frame.
The last store at the queried displacement decides, whatever its size, and a store at
another displacement is not looked at even where it overlaps the cell.
`frame_answers_hold_iff` says which layouts of stores make the reported immediate the
little-endian content of the queried bytes.
-/

namespace IDAnalysister

open Bytes

/-! ## Stores relative to a register -/

/-- `mov [base+disp], n` with an operand of `size` bytes. -/
structure BaseStore (i : Instruction) (base : Nat) (disp : Int) (size n : Nat) : Prop where
  mnem : i.mnem = "mov"
  operands : ∃ a b, Pair i a b true false ∧ (a.kind = .memDispl ∨ a.kind = .memPhrase) ∧
    a.reg = some base ∧ a.disp = disp ∧ a.dtypeSize = size ∧ a.hasIndex = false ∧
    a.hasSegment = false ∧ b.kind = .immediate ∧ b.immValue = some (n : Int)

section BaseStore

variable {port : IdaPort} {i : Instruction} {base size n funcEa : Nat} {disp : Int}

/-- Away from the stack pointer a cell has one name in the whole function. -/
theorem memoryLocation_base (notSp : port.stackPointerReg ≠ some base) (disp : Int) (ea : Nat) :
    memoryLocation port (some base) disp ea funcEa =
      (if port.framePointerReg = some base then .fp else .reg base, disp) := by
  rw [memoryLocation]
  simp only [notSp, if_false]
  split <;> rfl

/-- A store counts as a definition of the place that its own address has. -/
theorem BaseStore.finding_place (store : BaseStore i base disp size n) (key : MemoryKey) :
    memoryFinding port i key funcEa =
      if memoryLocation port (some base) disp i.ea funcEa = key then some (.interpret 0)
      else none := by
  rcases store.operands with ⟨a, b, pair, kind, reg, rfl, -, noIndex, noSegment, -, -⟩
  have memory : a.isMemory = true := by
    rcases kind with kind | kind <;> simp [Operand.isMemory, kind]
  have notDirect : a.kind ≠ .memDirect := by
    rcases kind with kind | kind <;> simp [kind]
  have location : operandLocation port a i.ea funcEa =
      some (memoryLocation port (some base) a.disp i.ea funcEa) := by
    simp [operandLocation, notDirect, reg, noSegment]
  exact memoryFinding_located pair memory noIndex location

/-- A store counts as a definition of the cell at its own displacement only. -/
theorem BaseStore.finding (store : BaseStore i base disp size n)
    (notSp : port.stackPointerReg ≠ some base) (queried : Int) (ea : Nat) :
    memoryFinding port i (memoryLocation port (some base) queried ea funcEa) funcEa =
      if disp = queried then some (.interpret 0) else none := by
  rw [store.finding_place, memoryLocation_base notSp, memoryLocation_base notSp]
  simp

/-- The number that an immediate is stored as is known without another query. -/
theorem decides_storeImm {self : BackwardResolver} (builtin : self.registry = defaultRegistry)
    {a b : Operand} (mnem : i.mnem = "mov") (pair : Pair i a b true false) (memory : a.isMemory)
    (imm : b.kind = .immediate) {x : Int} (value : b.immValue = some x) (funcEa : Nat) :
    Decides self i funcEa (.interpret 0) (.concrete (.int x) .int) := by
  have matched := findMatch_movMemImm mnem pair memory imm
  rw [← builtin] at matched
  refine decides_resolved matched ?_
  rw [movMemImm_extract pair.operand_one, value]
  rfl

theorem BaseStore.decides {self : BackwardResolver} (builtin : self.registry = defaultRegistry)
    (store : BaseStore i base disp size n) (funcEa : Nat) :
    Decides self i funcEa (.interpret 0) (.concrete (.int n) .int) := by
  rcases store.operands with ⟨a, b, pair, kind, -, -, -, -, -, hb, imm⟩
  have memory : a.isMemory = true := by
    rcases kind with kind | kind <;> simp [Operand.isMemory, kind]
  exact decides_storeImm builtin store.mnem pair memory hb imm funcEa

variable {self : BackwardResolver} {is pre post : List Instruction} {use queriedSize : Nat}

/-- Where no instruction writes the cell nothing concrete is reported. -/
theorem StraightLine.memory_silent (builtin : self.registry = defaultRegistry)
    (line : StraightLine self.port is use) {base : Option Nat}
    (clear : ∀ j ∈ is, memoryFinding self.port j
      (memoryLocation self.port base disp use line.funcEa) line.funcEa = none)
    (d : Datum) (k : ValueKind) :
    self.resolveMemory base disp use queriedSize ≠ some (.concrete d k) := by
  have strict := strict_of_builtin builtin
  intro answered
  exact line.memory_none strict clear answered d k rfl

/-- What the last definition of the cell decides is reported, whatever the queried size. -/
theorem StraightLine.memory_reported (builtin : self.registry = defaultRegistry)
    (line : StraightLine self.port is use) (split : is = pre ++ i :: post) {base : Option Nat}
    {x : Int} (found : memoryFinding self.port i
      (memoryLocation self.port base disp use line.funcEa) line.funcEa = some (.interpret 0))
    (clear : ∀ j ∈ post, memoryFinding self.port j
      (memoryLocation self.port base disp use line.funcEa) line.funcEa = none)
    (decides : Decides self i line.funcEa (.interpret 0) (.concrete (.int x) .int)) :
    (post.length + 2 ≤ self.maxSteps →
      self.resolveMemory base disp use queriedSize = some (.concrete (.int x) .int)) ∧
    ∀ d k, self.resolveMemory base disp use queriedSize = some (.concrete d k) →
      d = .int x := by
  have strict := strict_of_builtin builtin
  constructor
  · exact line.memory_eq split rfl found clear decides
  · intro d k answered
    have value := line.memory_known (w := .concrete d k) strict split rfl found clear decides
      (Eq.refl true) answered
    cases value
    rfl

/-- The immediate of the last store to the cell is reported, whatever the queried size. -/
theorem BaseStore.reported (builtin : self.registry = defaultRegistry)
    (notSp : self.port.stackPointerReg ≠ some base) (line : StraightLine self.port is use)
    (store : BaseStore i base disp size n) (split : is = pre ++ i :: post)
    (clear : ∀ j ∈ post, memoryFinding self.port j
      (memoryLocation self.port (some base) disp use line.funcEa) line.funcEa = none) :
    (post.length + 2 ≤ self.maxSteps →
      self.resolveMemory (some base) disp use queriedSize = some (.concrete (.int n) .int)) ∧
    ∀ d k, self.resolveMemory (some base) disp use queriedSize = some (.concrete d k) →
      d = .int n := by
  have found : memoryFinding self.port i (memoryLocation self.port (some base) disp use line.funcEa)
      line.funcEa = _ := store.finding notSp disp use
  rw [if_pos rfl] at found
  exact line.memory_reported builtin split found clear (store.decides builtin line.funcEa)

end BaseStore

/-! ## Layouts of stores to the frame -/

/-- The last store at this very displacement, if there is one, has the queried size and no
later store overlaps it. -/
def LastStoreIntact (cells : List (Cell Int)) (disp : Int) (size : Nat) : Prop :=
  ∀ before c after, cells = before ++ c :: after → c.addr = disp →
    (∀ e ∈ after, e.addr ≠ disp) → size = c.size ∧ ∀ e ∈ after, ¬ e.Overlaps c

section Layout

variable {cells : List (Cell Int)} {disp : Int} {size : Nat}

theorem LastStoreIntact.read_eq {before after : List (Cell Int × Nat)} {c : Cell Int} {n : Nat}
    (intact : LastStoreIntact ((before ++ (c, n) :: after).map Prod.fst) c.addr size)
    (fitting : Fitting (before ++ (c, n) :: after)) (other : ∀ s ∈ after, s.1.addr ≠ c.addr)
    (m : Memory Int) : read (storeAll (before ++ (c, n) :: after) m) c.addr size = n := by
  have other' : ∀ e ∈ after.map Prod.fst, e.addr ≠ c.addr := by
    intro e member
    rcases List.mem_map.mp member with ⟨s, inside, rfl⟩
    exact other s inside
  rcases intact _ c _ (by rw [List.map_append, List.map_cons]) rfl other' with ⟨rfl, apart⟩
  have fits : n < 256 ^ c.size := fitting (c, n) (by simp)
  apply read_storeAll (roomy_int c.size) fits
  intro s member
  exact apart s.1 (List.mem_map_of_mem member)

/-- Where whatever is stored last at the displacement is read back, it is intact. -/
theorem LastStoreIntact.of_readsBack
    (back : ∀ before c after, cells = before ++ c :: after → c.addr = disp →
      (∀ e ∈ after, e.addr ≠ disp) → ReadsBack before c after disp size) :
    LastStoreIntact cells disp size := by
  intro before c after split here other
  exact ((readsBack_iff (fun d _ => roomy_int d.size) (roomy_int _) (Or.inl here.symm)).mp
    (back before c after split here other)).2

end Layout

/-! ## Rows of stores to the frame -/

/-- The instructions store to the cells, at their displacements from `base`. -/
def StoreRow (base : Nat) (is : List Instruction) (stores : List (Cell Int × Nat)) : Prop :=
  List.Forall₂ (fun i s => BaseStore i base s.1.addr s.1.size s.2) is stores

/-- Under any limits, after stores of any immediates to the cells in this order and from any
content of the frame, a concrete answer is the content of the queried bytes. -/
def FrameAnswersHold (cells : List (Cell Int)) (disp : Int) (size : Nat) : Prop :=
  ∀ (self : BackwardResolver) (fp : Nat) (is : List Instruction) (use : Nat)
    (stores : List (Cell Int × Nat)), self.registry = defaultRegistry →
    self.port.framePointerReg = some fp → self.port.stackPointerReg ≠ some fp →
    StraightLine self.port is use → StoreRow fp is stores → Fitting stores →
    stores.map Prod.fst = cells → ∀ (m : Memory Int) (d : Datum) (k : ValueKind),
      self.resolveMemory (some fp) disp use size = some (.concrete d k) →
        d = .int (read (storeAll stores m) disp size)

section Row

variable {self : BackwardResolver} {base use size : Nat} {is : List Instruction} {disp : Int}

theorem StoreRow.clear {port : IdaPort} {funcEa : Nat}
    (notSp : port.stackPointerReg ≠ some base) {stores : List (Cell Int × Nat)}
    (row : StoreRow base is stores) (other : ∀ s ∈ stores, s.1.addr ≠ disp) (ea : Nat) :
    ∀ j ∈ is, memoryFinding port j (memoryLocation port (some base) disp ea funcEa) funcEa =
      none := by
  intro j member
  rcases exists_of_forall₂ row member with ⟨s, inside, store⟩
  rw [store.finding notSp, if_neg (other s inside)]

/-- What is reported is the immediate of the last store at the queried displacement. -/
theorem StoreRow.last (builtin : self.registry = defaultRegistry)
    (notSp : self.port.stackPointerReg ≠ some base) (line : StraightLine self.port is use)
    {before after : List (Cell Int × Nat)} {c : Cell Int} {n : Nat}
    (row : StoreRow base is (before ++ (c, n) :: after)) (other : ∀ s ∈ after, s.1.addr ≠ c.addr) :
    (after.length + 2 ≤ self.maxSteps →
      self.resolveMemory (some base) c.addr use size = some (.concrete (.int n) .int)) ∧
    ∀ d k, self.resolveMemory (some base) c.addr use size = some (.concrete d k) → d = .int n := by
  rcases forall₂_split row with ⟨pre, i, post, split, -, store, rest⟩
  rw [← rest.length_eq]
  exact store.reported builtin notSp line split (StoreRow.clear notSp rest other use)

end Row

/-! ## Layouts that are reported right -/

/-- A store of a number to a cell, at a given address. -/
def storeTo (base : Nat) (s : Cell Int × Nat) (ea : Nat) : Instruction :=
  FakeIdaPort.insn ea "mov" 1
    [FakeIdaPort.memDispl 0 base s.1.addr s.1.size, FakeIdaPort.imm 1 s.2 s.1.size]

theorem storeTo_store (base : Nat) (s : Cell Int × Nat) (ea : Nat) :
    BaseStore (storeTo base s ea) base s.1.addr s.1.size s.2 where
  mnem := rfl
  operands := ⟨_, _, ⟨rfl, rfl, rfl, rfl, rfl⟩, Or.inl rfl, rfl, rfl, rfl, rfl, rfl, rfl, rfl⟩

theorem storeTo_unitSized (base : Nat) (stores : List (Cell Int × Nat)) :
    UnitSized (stores.map (storeTo base)) := by
  intro f member ea
  rcases List.mem_map.mp member with ⟨s, -, rfl⟩
  exact ⟨rfl, rfl⟩

/-- Answers that always hold read the last store at the displacement back. -/
theorem FrameAnswersHold.readsBack {before after : List (Cell Int)} {c : Cell Int} {disp : Int}
    {size : Nat} (holds : FrameAnswersHold (before ++ c :: after) disp size)
    (here : c.addr = disp) (other : ∀ e ∈ after, e.addr ≠ disp) :
    ReadsBack before c after disp size := by
  subst here
  intro m pre post v cells cells' fitting
  let stores := pre ++ (c, v) :: post
  let self : BackwardResolver :=
    { port := rowPort { blankPort with framePointerReg := some 5 } (stores.map (storeTo 5))
      registry := defaultRegistry
      maxSteps := post.length + 2 }
  have line : StraightLine self.port (layOut 0 (stores.map (storeTo 5)))
      (stores.map (storeTo 5)).length := rowLine _ (storeTo_unitSized 5 stores)
  have row : StoreRow 5 (layOut 0 (stores.map (storeTo 5))) stores :=
    forall₂_layOut (fun s _ => storeTo_store 5 s) 0
  have notSp : self.port.stackPointerReg ≠ some 5 := by
    intro same
    cases same
  have other' : ∀ s ∈ post, s.1.addr ≠ c.addr := by
    intro s member
    apply other
    rw [← cells']
    exact List.mem_map_of_mem member
  have answered : self.resolveMemory (some 5) c.addr (stores.map (storeTo 5)).length size = _ :=
    (row.last rfl notSp line other').1 (Nat.le_refl _)
  have all : stores.map Prod.fst = before ++ c :: after := by
    rw [List.map_append, List.map_cons, cells, cells']
  have value := holds self 5 _ _ stores rfl rfl notSp line row fitting all m _ _ answered
  exact (Int.ofNat.inj (Datum.int.inj value)).symm

/-- Every report for `size` bytes at `disp` after stores to the cells is right if and only
if the last store at this very displacement, where there is one, has the queried size and no
later store overlaps it. -/
theorem frame_answers_hold_iff (cells : List (Cell Int)) (disp : Int) (size : Nat) :
    FrameAnswersHold cells disp size ↔ LastStoreIntact cells disp size := by
  constructor
  · intro holds
    apply LastStoreIntact.of_readsBack
    intro before c after split here other
    rw [split] at holds
    exact holds.readsBack here other
  · intro intact self fp is use stores builtin _ notSp line row fitting all m d k answered
    rcases ConsistentCfg.exists_last (fun s : Cell Int × Nat => s.1.addr = disp) stores with
      none | ⟨pre, ⟨c, n⟩, post, split, here, other⟩
    · exact (line.memory_silent builtin (StoreRow.clear notSp row none use) d k answered).elim
    · subst split here all
      have value := (row.last builtin notSp line other).2 d k answered
      rw [value, intact.read_eq fitting other]

/-! ## A byte written into a word -/

namespace ByteInWord

def fake : FakeIdaPort where
  pointerSize := 4
  instructions := [
    FakeIdaPort.insn 0x401000 "mov" 7 [FakeIdaPort.memDispl 0 5 (-8), FakeIdaPort.imm 1 1],
    FakeIdaPort.insn 0x401007 "mov" 4 [FakeIdaPort.memDispl 0 5 (-7) 1, FakeIdaPort.imm 1 2 1],
    FakeIdaPort.insn 0x40100b "ret" 1 []]
  funcBounds := [(0x401000, 0x40100c)]
  blocks := [(0x401000, [⟨0x401000, 0x40100c, [], []⟩])]

def resolver : BackwardResolver where
  port := fake.toPort
  registry := defaultRegistry

/-- The first store is reported although the second has changed its second byte. -/
theorem word_reported_stale :
    resolver.resolveMemory (some 5) (-8) 0x40100b 4 = some (.concrete (.int 1) .int) ∧
      read (storeAll [(⟨-8, 4⟩, 1), (⟨-7, 1⟩, 2)] (0 : Memory Int)) (-8) 4 = 0x201 := by
  decide

end ByteInWord

end IDAnalysister
