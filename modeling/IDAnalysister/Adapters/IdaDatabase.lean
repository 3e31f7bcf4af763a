import IDAnalysister.Adapters.IdaPortImpl
import IDAnalysister.Backward.Extension
import IDAnalysister.Forward.Clobbers

/-!
# From a database to the engines

What `IdaPortImpl` makes of a function that a database holds as IDA documents it: the operands
keep their numbers and flags, the graph that the engines build is consistent with the decoded
instructions, and a path of the flow chart is a path of that graph. What the resolver answers
over the adapter is then right about the executions of the database's own instructions.
-/

namespace IDAnalysister

open Transfer Trace IdaPortImpl ForwardSymbolicEngine

/-! ## Instructions -/

section Conversion

variable {regName : Nat → Option String} {bits : FeatureBits} {insn : RawInsn}

/-- The numbers of the operands that are there. -/
def RawInsn.numbers (insn : RawInsn) : List (Fin 8) :=
  (List.finRange 8).filter fun number => (insn.ops number).type ≠ .void

theorem RawInsn.mem_numbers {n : Fin 8} : n ∈ insn.numbers ↔ (insn.ops n).type ≠ .void := by
  simp [RawInsn.numbers]

@[simp] theorem convertOperand_number (raw : IdaInsn) (op : IdaOp) (number : Nat) :
    (convertOperand regName raw op number).number = number := by
  unfold convertOperand
  cases op.type <;> rfl

/-- A number in a list is found by its value, and no other is. -/
theorem find?_val {numbers : List (Fin 8)} (n : Nat) :
    numbers.find? (fun m => m.val = n) =
      if below : n < 8 then if ⟨n, below⟩ ∈ numbers then some ⟨n, below⟩ else none else none := by
  induction numbers with
  | nil => simp
  | cons m rest ih =>
      rw [List.find?_cons]
      by_cases same : m.val = n
      · subst same
        simp
      · have other (below : n < 8) : (⟨n, below⟩ : Fin 8) ≠ m := by
          rintro rfl
          exact same rfl
        rw [decide_eq_false same]
        dsimp only
        rw [ih]
        split
        · rename_i below
          simp only [List.mem_cons, other below, false_or]
        · rfl

/-- The operand of a number is the conversion of the one with that number. -/
theorem operand_convert (n : Nat) :
    (convertInstruction regName bits insn).operand n =
      (insn.numbers.find? (fun m => m.val = n)).map fun m =>
        convertOperand regName insn.toIdaInsn (insn.ops m) m := by
  change List.find? _ (insn.numbers.map _) = _
  rw [List.find?_map]
  simp only [Function.comp_def, convertOperand_number]

/-- The flag of a number is the bit of that number. -/
theorem flag_convert (g : Fin 8 → Bool) (n : Nat) :
    (convertInstruction regName bits insn).flag (insn.numbers.map g) n =
      ((insn.numbers.find? (fun m => m.val = n)).map g).getD false := by
  have listed : (convertInstruction regName bits insn).operands =
      insn.numbers.map fun m => convertOperand regName insn.toIdaInsn (insn.ops m) m := rfl
  rw [Instruction.flag, listed, List.zip_map', List.find?_map]
  simp only [Function.comp_def, convertOperand_number]
  cases insn.numbers.find? (fun m => m.val = n) with
  | none => rfl
  | some m => rfl

/-- What a converted instruction says of the operand with each number, whatever is void before
it. -/
structure ReadsOps (regName : Nat → Option String) (bits : FeatureBits) (insn : RawInsn)
    (i : Instruction) : Prop where
  operand : ∀ n : Fin 8, i.operand n = if (insn.ops n).type = .void then none
    else some (convertOperand regName insn.toIdaInsn (insn.ops n) n)
  written : ∀ n : Fin 8, i.isWritten n = true ↔
    (insn.ops n).type ≠ .void ∧ insn.canonFeature &&& bits.chg n ≠ 0
  read : ∀ n : Fin 8, i.isRead n = true ↔
    (insn.ops n).type ≠ .void ∧ insn.canonFeature &&& bits.use n ≠ 0
  /-- A number that no operand of IDA's has belongs to none. -/
  beyond : ∀ n, 8 ≤ n → i.operand n = none ∧ i.isWritten n = false ∧ i.isRead n = false
  /-- A register counts as written exactly for the flag of one of its own operands. -/
  flags : ∀ r, FlagsRegister i (some r) ↔
    ∃ n : Fin 8, (insn.ops n).type = .reg ∧ (insn.ops n).reg = r ∧
      insn.canonFeature &&& bits.chg n ≠ 0

theorem find?_number (n : Fin 8) : insn.numbers.find? (fun m => m.val = n.val) =
    if (insn.ops n).type = .void then none else some n := by
  rw [find?_val, dif_pos n.isLt]
  by_cases void : (insn.ops n).type = .void
  · rw [if_pos void, if_neg fun member => RawInsn.mem_numbers.mp member void]
  · rw [if_neg void, if_pos (RawInsn.mem_numbers.mpr void)]

theorem flag_number (g : Fin 8 → Bool) (n : Fin 8) :
    (convertInstruction regName bits insn).flag (insn.numbers.map g) n = true ↔
      (insn.ops n).type ≠ .void ∧ g n = true := by
  rw [flag_convert, find?_number]
  by_cases void : (insn.ops n).type = .void <;> simp [void]

theorem convertOperand_reg_iff {raw : IdaInsn} {op : IdaOp} {number r : Nat} :
    ((convertOperand regName raw op number).kind = .reg ∧
      (convertOperand regName raw op number).reg = some r) ↔ op.type = .reg ∧ op.reg = r := by
  unfold convertOperand
  cases type : op.type <;> simp

theorem convertInstruction_reads (regName : Nat → Option String) (bits : FeatureBits)
    (insn : RawInsn) : ReadsOps regName bits insn (convertInstruction regName bits insn) := by
  have written (n : Fin 8) : (convertInstruction regName bits insn).isWritten n = true ↔
      (insn.ops n).type ≠ .void ∧ insn.canonFeature &&& bits.chg n ≠ 0 := by
    have flagged := @flag_number regName bits insn
      (fun n => insn.canonFeature &&& bits.chg n ≠ 0) n
    rwa [decide_eq_true_eq] at flagged
  refine ⟨fun n => ?_, written, fun n => ?_, fun n beyond => ?_, fun r => ?_⟩
  · rw [operand_convert, find?_number]
    by_cases void : (insn.ops n).type = .void <;> simp [void]
  · have flagged := @flag_number regName bits insn
      (fun n => insn.canonFeature &&& bits.use n ≠ 0) n
    rwa [decide_eq_true_eq] at flagged
  · have missing : insn.numbers.find? (fun m => m.val = n) = none := by
      rw [find?_val, dif_neg (by omega)]
    have unflagged (g : Fin 8 → Bool) :
        (convertInstruction regName bits insn).flag (insn.numbers.map g) n = false := by
      rw [flag_convert, missing]
      rfl
    refine ⟨?_, unflagged _, unflagged _⟩
    rw [operand_convert, missing]
    rfl
  · constructor
    · rintro ⟨op, member, kind, set, named⟩
      rcases List.mem_map.mp member with ⟨n, -, rfl⟩
      rcases convertOperand_reg_iff.mp ⟨kind, named⟩ with ⟨type, same⟩
      rw [convertOperand_number] at set
      exact ⟨n, type, same, ((written n).mp set).2⟩
    · rintro ⟨n, type, same, set⟩
      have there : (insn.ops n).type ≠ .void := by
        rw [type]
        decide
      rcases convertOperand_reg_iff.mpr ⟨type, same⟩ with ⟨kind, named⟩
      refine ⟨_, List.mem_map_of_mem (RawInsn.mem_numbers.mpr there), kind, ?_, named⟩
      rw [convertOperand_number]
      exact (written n).mpr ⟨there, set⟩

end Conversion

/-! ## Functions -/

/-- Decoded instructions fill the addresses from the first bound up to the second. -/
inductive RawTiles : Nat → List RawInsn → Nat → Prop
  | nil (lo : Nat) : RawTiles lo [] lo
  | cons {insn : RawInsn} {insns : List RawInsn} {hi : Nat} :
    0 < insn.size → RawTiles (insn.ea + insn.size) insns hi → RawTiles insn.ea (insn :: insns) hi

/-- Converted instructions tile what the decoded ones did. -/
theorem RawTiles.converted {api : IdaApi} {lo hi : Nat} {insns : List RawInsn}
    (tiles : RawTiles lo insns hi) : Tiles lo (insns.map (convert api)) hi := by
  induction tiles with
  | nil lo => exact .nil lo
  | @cons insn insns hi positive _ ih =>
      have size : 0 < (convert api insn).size := positive
      exact .cons size ih

/-- The head found before an address is the closest one, as `ida_bytes.prev_head` has it. -/
inductive ClosestHead (isHead : Nat → Prop) (ea minEa : Nat) : Option Nat → Prop
  | found {head : Nat} : minEa ≤ head → head < ea → isHead head →
    (∀ x, head < x → x < ea → ¬ isHead x) → ClosestHead isHead ea minEa (some head)
  | none : (∀ x, minEa ≤ x → x < ea → ¬ isHead x) → ClosestHead isHead ea minEa none

/-- A function of a database as IDA documents it: the blocks of its flow chart are disjoint and
full of decoded instructions, the heads among their addresses are those of the instructions, and
the blocks that a block yields as successors are those that yield it as a predecessor. -/
structure DatabaseFunction (api : IdaApi) where
  func : IdaFunc
  chart : List FlowBlock
  entry : FlowBlock
  /-- The instructions of the block that starts at an address. -/
  items : Nat → List RawInsn
  isHead : Nat → Prop
  found : api.getFunc func.startEa = some (some func)
  charted : api.flowChart func = some chart
  entry_mem : entry ∈ chart
  entry_startEa : entry.startEa = func.startEa
  nonempty : ∀ b ∈ chart, b.startEa < b.endEa
  disjoint : ∀ b ∈ chart, ∀ c ∈ chart, b ≠ c → b.endEa ≤ c.startEa ∨ c.endEa ≤ b.startEa
  converse : ∀ b ∈ chart, ∀ c ∈ chart, c.startEa ∈ b.succs ↔ b.startEa ∈ c.preds
  tiled : ∀ b ∈ chart, RawTiles b.startEa (items b.startEa) b.endEa
  decoded : ∀ b ∈ chart, ∀ insn ∈ items b.startEa, api.decodeInsn insn.ea = some (some insn)
  heads : ∀ b ∈ chart, ∀ x, b.startEa ≤ x → x < b.endEa →
    (isHead x ↔ ∃ insn ∈ items b.startEa, insn.ea = x)
  closest : ∀ ea minEa, ∃ head, api.prevHead ea minEa = some head ∧ ClosestHead isHead ea minEa head
  owner : ∀ b ∈ chart, ∀ ea, b.startEa ≤ ea → ea < b.endEa → api.getFunc ea = some (some func)

/-- The last instruction below an address is the closest head before it. -/
theorem Tiles.closest_head {lo hi ea : Nat} {is : List Instruction} (tiles : Tiles lo is hi)
    {isHead : Nat → Prop} (heads : ∀ x, lo ≤ x → x < hi → (isHead x ↔ ∃ i ∈ is, i.ea = x))
    (inside : ea ≤ hi) {head : Option Nat} (closest : ClosestHead isHead ea lo head) :
    head = (before is ea).getLast?.map (·.ea) := by
  cases closest with
  | none missing =>
      have empty : before is ea = [] := by
        apply List.filter_eq_nil_iff.mpr
        intro i member
        have bounds := tiles.bounds member
        rw [decide_eq_true_eq, Nat.not_lt]
        by_contra below
        exact missing i.ea bounds.1 (by omega)
          ((heads i.ea bounds.1 bounds.2).mpr ⟨i, member, rfl⟩)
      rw [empty]
      rfl
  | @found head low below isHead' last =>
      rcases (heads head low (by omega)).mp isHead' with ⟨i, member, rfl⟩
      rcases List.append_of_mem member with ⟨pre, post, rfl⟩
      have ends : before post ea = [] := by
        apply List.filter_eq_nil_iff.mpr
        intro j later
        rw [decide_eq_true_eq, Nat.not_lt]
        by_contra early
        have listed : j ∈ pre ++ i :: post := by simp [later]
        have bounds := tiles.bounds listed
        rcases tiles.append_inv with ⟨mid, -, rest⟩
        have after := rest.head.2.bounds later
        have size := rest.ea_lt_nextEa List.mem_cons_self
        exact last j.ea (by omega) (by omega) ((heads j.ea bounds.1 bounds.2).mpr ⟨j, listed, rfl⟩)
      have split : before (pre ++ i :: post) ea = before pre ea ++ [i] := by
        have ends' : post.filter (·.ea < ea) = [] := ends
        rw [before, List.filter_append, List.filter_cons_of_pos (by simpa using below), ends',
          before]
      rw [split, List.getLast?_concat]
      rfl

namespace DatabaseFunction

variable {api : IdaApi} (f : DatabaseFunction api)

/-- The graph has a block for each block of the chart. -/
theorem blocks_eq : (buildCfg (port api).toIdaPort f.func.startEa).blocks =
    f.chart.map blockInfo := by
  change getFlowchartBlocks api f.func.startEa = _
  rw [getFlowchartBlocks, f.found]
  change safe [] ((api.flowChart f.func).map _) = _
  rw [f.charted]
  rfl

theorem mem_blocks {b : BasicBlockInfo}
    (member : b ∈ (buildCfg (port api).toIdaPort f.func.startEa).blocks) :
    ∃ block ∈ f.chart, blockInfo block = b := by
  rw [f.blocks_eq] at member
  exact List.mem_map.mp member

/-- The graph that the engines build over the adapter is consistent. -/
def graph : ConsistentCfg (port api).toIdaPort f.func.startEa where
  tile b := (f.items b.startEa).map (convert api)
  entry := blockInfo f.entry
  entry_mem := by
    rw [f.blocks_eq]
    exact List.mem_map_of_mem f.entry_mem
  entry_startEa := f.entry_startEa
  nonempty b member := by
    rcases f.mem_blocks member with ⟨block, charted, rfl⟩
    exact f.nonempty block charted
  disjoint b hb c hc different := by
    rcases f.mem_blocks hb with ⟨block, charted, rfl⟩
    rcases f.mem_blocks hc with ⟨block', charted', rfl⟩
    exact f.disjoint block charted block' charted' fun same => different (by rw [same])
  converse b hb c hc := by
    rcases f.mem_blocks hb with ⟨block, charted, rfl⟩
    rcases f.mem_blocks hc with ⟨block', charted', rfl⟩
    have listed := f.converse block charted block' charted'
    simp only [blockInfo, mem_sortedSet]
    exact listed
  tiled b member := by
    rcases f.mem_blocks member with ⟨block, charted, rfl⟩
    exact (f.tiled block charted).converted
  decoded b member i inTile := by
    rcases f.mem_blocks member with ⟨block, charted, rfl⟩
    rcases List.mem_map.mp inTile with ⟨insn, listed, rfl⟩
    have decoded := f.decoded block charted insn listed
    change safe none ((api.decodeInsn insn.ea).map _) = _
    rw [decoded]
    rfl
  heads b member ea low high := by
    rcases f.mem_blocks member with ⟨block, charted, rfl⟩
    rcases f.closest ea block.startEa with ⟨head, answered, closest⟩
    have answer : (port api).prevHead ea block.startEa = head := by
      change safe none (api.prevHead ea block.startEa) = head
      rw [answered]
      rfl
    refine answer.trans (Tiles.closest_head (f.tiled block charted).converted ?_ high closest)
    intro x lo hi
    rw [f.heads block charted x lo hi]
    constructor
    · rintro ⟨insn, listed, rfl⟩
      exact ⟨convert api insn, List.mem_map_of_mem listed, rfl⟩
    · rintro ⟨i, inTile, rfl⟩
      rcases List.mem_map.mp inTile with ⟨insn, listed, rfl⟩
      exact ⟨insn, listed, rfl⟩
  owner b member ea low high := by
    rcases f.mem_blocks member with ⟨block, charted, rfl⟩
    change safe none ((api.getFunc ea).map _) = _
    rw [f.owner block charted ea low high]
    rfl

/-! ## Executions -/

/-- `Path b insns`: along the arrows of the flow chart, `insns` are executed from the entry
before `b` is entered. -/
inductive Path : FlowBlock → List RawInsn → Prop
  | entry : Path f.entry []
  | step {b c : FlowBlock} {insns : List RawInsn} :
    Path b insns → c ∈ f.chart → c.startEa ∈ b.succs → Path c (insns ++ f.items b.startEa)

/-- `PathTo ea insns`: they are executed before `ea` is reached. -/
inductive PathTo (ea : Nat) : List RawInsn → Prop
  | intro {b : FlowBlock} {insns : List RawInsn} : f.Path b insns → b.startEa ≤ ea →
    ea < b.endEa → PathTo ea (insns ++ (f.items b.startEa).filter (·.ea < ea))

variable {f}

/-- A path of the chart is a path of the graph. -/
theorem Path.converted {b : FlowBlock} {insns : List RawInsn} (path : f.Path b insns) :
    f.graph.Path (blockInfo b) (insns.map (convert api)) := by
  induction path with
  | entry => exact .entry
  | @step b c insns _ charted arrow ih =>
      rw [List.map_append]
      refine .step ih (f.graph.mem_successors_iff.mpr ⟨?_, mem_sortedSet.mpr arrow⟩)
      change _ ∈ (buildCfg (port api).toIdaPort f.func.startEa).blocks
      rw [f.blocks_eq]
      exact List.mem_map_of_mem charted

/-- So is one to an address. -/
theorem PathTo.converted {ea : Nat} {insns : List RawInsn} (path : f.PathTo ea insns) :
    f.graph.PathTo ea (insns.map (convert api)) := by
  rcases path with ⟨entered, low, high⟩
  have filtered : ∀ items : List RawInsn,
      (items.filter (·.ea < ea)).map (convert api) = before (items.map (convert api)) ea := by
    intro items
    rw [before, List.filter_map]
    rfl
  rw [List.map_append, filtered]
  exact .intro entered.converted low high

/-- The function as the resolver sees it, when it is right about each converted instruction. -/
def explained {registry : LocatorRegistry} {maxSteps maxBlocks W : Nat} {places : Place → Prop}
    {sem : Semantics W} (source : ∀ b ∈ f.chart, b.startEa ∉ f.entry.preds)
    (each : ∀ b ∈ f.chart, ∀ insn ∈ f.items b.startEa,
      Explains ⟨(port api).toIdaPort, registry, maxSteps, maxBlocks⟩ f.func.startEa places
        (convert api insn) (sem (convert api insn))) :
    ExplainedFunction ⟨(port api).toIdaPort, registry, maxSteps, maxBlocks⟩ W where
  funcEa := f.func.startEa
  graph := f.graph
  source := by
    rw [List.eq_nil_iff_forall_not_mem]
    intro p pred
    rcases f.graph.mem_predecessors_iff.mp pred with ⟨member, listed⟩
    rcases f.mem_blocks member with ⟨block, charted, rfl⟩
    exact source block charted (mem_sortedSet.mp listed)
  places
  sem
  explained b member i inTile := by
    rcases f.mem_blocks member with ⟨block, charted, rfl⟩
    rcases List.mem_map.mp inTile with ⟨insn, listed, rfl⟩
    exact each block charted insn listed

end DatabaseFunction

/-- Over the adapter, a concrete answer for a register or a cell is the word there whenever an
execution of the database's instructions, along the arrows of its flow chart, gets to the use:
duplicate or unordered arrows, void operands and the order of the blocks make no difference. -/
theorem database_sound (api : IdaApi) (f : DatabaseFunction api) (registry : LocatorRegistry)
    (maxSteps maxBlocks : Nat) {W : Nat} {places : Place → Prop} {sem : Semantics W}
    (source : ∀ b ∈ f.chart, b.startEa ∉ f.entry.preds)
    (each : ∀ b ∈ f.chart, ∀ insn ∈ f.items b.startEa,
      Explains ⟨(port api).toIdaPort, registry, maxSteps, maxBlocks⟩ f.func.startEa places
        (convert api insn) (sem (convert api insn)))
    {ea : Nat} {insns : List RawInsn} {s s' : State Place W} (path : f.PathTo ea insns)
    (execution : Along (fun insn => sem (convert api insn)) insns s s') {d : Datum}
    {k : ValueKind} :
    (∀ r, places (.reg r) → BackwardResolver.resolveRegister
      ⟨(port api).toIdaPort, registry, maxSteps, maxBlocks⟩ r ea = some (.concrete d k) →
        d = .int (s' (.reg r)).toNat) ∧
    (∀ base disp size cell,
      memoryLocation (port api).toIdaPort base disp ea f.func.startEa = cell →
      places (.cell cell) → BackwardResolver.resolveMemory
        ⟨(port api).toIdaPort, registry, maxSteps, maxBlocks⟩ base disp ea size =
          some (.concrete d k) → d = .int (s' (.cell cell)).toNat) := by
  have execution' : Along sem (insns.map (convert api)) s s' := execution.map
  let g := DatabaseFunction.explained source each
  refine ⟨fun r chosen answer => ?_, fun base disp size cell located chosen answer => ?_⟩
  · have always : g.Always ea (.reg r) d := ExplainedFunction.always_register chosen answer
    exact always _ s s' path.converted execution'
  · have always : g.Always ea (.cell cell) d :=
      ExplainedFunction.always_cell located chosen answer
    exact always _ s s' path.converted execution'

/-! ### A loop in a database -/

theorem closestHead_max? (heads : List Nat) (ea minEa : Nat) :
    ClosestHead (· ∈ heads) ea minEa (heads.filter fun h => minEa ≤ h ∧ h < ea).max? := by
  cases found : (heads.filter fun h => minEa ≤ h ∧ h < ea).max? with
  | none =>
      refine .none fun x low high listed => ?_
      have empty := List.max?_eq_none_iff.mp found
      have missing := List.filter_eq_nil_iff.mp empty x listed
      simp [low, high] at missing
  | some h =>
      rcases List.max?_eq_some_iff.mp found with ⟨member, greatest⟩
      rcases List.mem_filter.mp member with ⟨listed, bounds⟩
      rw [decide_eq_true_eq] at bounds
      refine .found bounds.1 bounds.2 listed fun x above below another => ?_
      have le := greatest x (List.mem_filter.mpr ⟨another, by simp; omega⟩)
      omega

namespace DatabaseLoop

def names : List (String × Nat) :=
  [("eax", 0), ("ecx", 1), ("edx", 2), ("ebx", 3), ("esp", 4), ("ebp", 5), ("esi", 6), ("edi", 7)]

/-- `mov esi, 0x404000`. -/
def setEsi : RawInsn where
  ea := 0x401000
  size := 5
  canonMnem := some "mov"
  canonFeature := 0x204
  ops n :=
    if n = 0 then { type := .reg, dtypeSize := 4, reg := 6 }
    else if n = 1 then { type := .imm, dtypeSize := 4, value := 0x404000 }
    else { type := .void }

/-- A jump to itself. -/
def back : RawInsn where
  ea := 0x401005
  size := 2
  canonMnem := some "jmp"
  canonFeature := 0x4100
  ops n := if n = 0 then { type := .near, dtypeSize := 4, addr := 0x401005 } else { type := .void }

def func : IdaFunc := ⟨0x401000, 0x401007⟩

def first : FlowBlock := ⟨0x401000, 0x401005, [0x401005], []⟩

/-- The arrow back is reported twice. -/
def second : FlowBlock := ⟨0x401005, 0x401007, [0x401005, 0x401005], [0x401005, 0x401000]⟩

def api : IdaApi where
  features :=
    { chg := fun n => if n < 6 then 2 ^ (n.val + 2) else 2 ^ (n.val + 11)
      use := fun n => if n < 6 then 2 ^ (n.val + 8) else 2 ^ (n.val + 13)
      call := 2
      jump := 0x4000
      stop := 1 }
  conventions := ⟨0xf0, 0x30, 0x50, 0x60, 0x70, 0x80, 0x90, 0xb0⟩
  bytes := ⟨fun _ => false, fun _ => 0⟩
  decodeInsn ea :=
    some (if ea = 0x401000 then some setEsi else if ea = 0x401005 then some back else none)
  prevHead ea minEa := some (([0x401000, 0x401005].filter fun h => minEa ≤ h ∧ h < ea).max?)
  xrefsTo _ := some []
  getFunc ea := some (if 0x401000 ≤ ea ∧ ea < 0x401007 then some func else none)
  flowChart _ := some [second, first]
  getSpd _ _ := some 0
  is64bit := some false
  is32bit := some true
  str2reg name := some (((names.lookup name).map Int.ofNat).getD (-1))
  getRegName reg width :=
    some (if width = 4 then (names.find? (·.2 = reg)).map (·.1) else none)
  getRegInfo name := some ((names.lookup name).map fun _ => (name, ⟨0, 0⟩))
  getTinfo _ := some none
  guessTinfo _ := some none

def function : DatabaseFunction api where
  func
  chart := [second, first]
  entry := first
  items start := if start = 0x401000 then [setEsi] else [back]
  isHead := (· ∈ [0x401000, 0x401005])
  found := rfl
  charted := rfl
  entry_mem := by simp
  entry_startEa := rfl
  nonempty := by decide
  disjoint := by
    intro b hb c hc different
    simp only [List.mem_cons, List.not_mem_nil, or_false] at hb hc
    rcases hb with rfl | rfl <;> rcases hc with rfl | rfl <;>
      first | exact (different rfl).elim | decide
  converse := by decide
  tiled := by
    intro b hb
    simp only [List.mem_cons, List.not_mem_nil, or_false] at hb
    rcases hb with rfl | rfl
    · exact @RawTiles.cons back [] _ (by decide) (.nil 0x401007)
    · exact @RawTiles.cons setEsi [] _ (by decide) (.nil 0x401005)
  decoded := by
    intro b hb insn member
    simp only [List.mem_cons, List.not_mem_nil, or_false] at hb
    rcases hb with rfl | rfl <;> obtain rfl := List.mem_singleton.mp member <;> rfl
  heads := by
    intro b hb x low high
    simp only [List.mem_cons, List.not_mem_nil, or_false] at hb
    rcases hb with rfl | rfl
    · simp only [second, back, List.mem_cons, List.not_mem_nil, or_false] at *
      simp; omega
    · simp only [first, setEsi] at *
      simp; omega
  closest ea minEa := ⟨_, rfl, closestHead_max? _ ea minEa⟩
  owner := by
    intro b hb ea low high
    simp only [List.mem_cons, List.not_mem_nil, or_false] at hb
    have inside : 0x401000 ≤ ea ∧ ea < 0x401007 := by
      rcases hb with rfl | rfl <;> simp only [first, second] at low high <;> omega
    exact congrArg some (if_pos inside)

theorem wholeEsi : WholeReg (port api).toIdaPort 32 6 := by
  have view (size : Nat) (wide : size = 0 ∨ size = 4) : (port api).registerView 6 size =
      some ⟨6, 0, 32, 32, true⟩ := by
    rcases wide with rfl | rfl <;> decide +kernel
  rintro size v wide found
  rw [view size (by omega)] at found
  cases found
  exact ⟨rfl, rfl, rfl⟩

theorem along (m : State Place 32) :
    Along (fun insn => FormStep (port api).toIdaPort 0x401000 32
      (Supported (port api).toIdaPort 32) (convert api insn)) [setEsi, back] m
        (Function.update m (.reg 6) (BitVec.ofInt 32 0x404000)) := by
  have moves : Form (port api).toIdaPort 0x401000 32 (convert api setEsi)
      (.const (.reg 6) 0x404000) :=
    .register (.movImm (by decide +kernel) ⟨rfl, rfl, rfl, rfl, rfl⟩ ⟨rfl, rfl, rfl, wholeEsi⟩
      ⟨rfl, rfl, by decide, by decide⟩)
  have jumps : Form (port api).toIdaPort 0x401000 32 (convert api back)
      (.havoc (Flagged (port api).toIdaPort 0x401000 (convert api back))) := by
    refine .register (.unmatched (by decide +kernel) fun op member reg => ?_)
    obtain rfl := List.mem_singleton.mp member
    cases reg
  exact .cons ⟨_, moves, fun _ _ _ => form_copies_supported moves, rfl⟩
    (.cons ⟨_, jumps, fun _ _ _ => form_copies_supported jumps, fun _ _ => rfl⟩ (.nil _))

theorem once : function.PathTo 0x401005 [setEsi, back] := by
  have listed : second ∈ function.chart := List.mem_cons_self
  have entered : function.Path second [setEsi] :=
    .step (b := function.entry) .entry listed (by decide)
  have again : function.Path second [setEsi, back] := .step entered listed (by decide)
  exact .intro again (by decide) (by decide)

end DatabaseLoop

/-- Once round the loop of the database, `esi` holds what the resolver reports. -/
theorem database_sound_databaseLoop : Datum.int 0x404000 = .int (Function.update (fun _ => 0#32)
    (.reg 6) (BitVec.ofInt 32 0x404000) (Place.reg 6)).toNat := by
  have answer : BackwardResolver.resolveRegister
      ⟨(port DatabaseLoop.api).toIdaPort, defaultRegistry, 200, 64⟩ 6 0x401005 =
        some (.concrete (.int 0x404000) .int) := by
    decide +kernel
  exact (database_sound DatabaseLoop.api DatabaseLoop.function defaultRegistry 200 64 (by decide)
    (fun _ _ _ _ => explains_formStep rfl (by decide) (by decide) fun _ supported => supported)
    DatabaseLoop.once (DatabaseLoop.along fun _ => 0#32)).1 6 DatabaseLoop.wholeEsi answer

end IDAnalysister
