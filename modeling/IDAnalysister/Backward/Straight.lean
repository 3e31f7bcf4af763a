import IDAnalysister.Backward.Budget
import IDAnalysister.Backward.Pushes
import IDAnalysister.Backward.Soundness
import IDAnalysister.Library.Interruption

/-!
# Queries on straight-line code

A `StraightLine` is a function's entry block that nothing jumps to, up to a use. With
enough budget a query there is decided by the last instruction that counts as a
definition (`RegisterScan.eq`, `StraightLine.memory_eq`), or by there being none.
A known answer under a small budget is the answer under a large one, so these results
settle what any budget can report.

`lineGraph` builds such a function from any row of instructions.
-/

namespace IDAnalysister

open Effect Prog

/-- The instructions `is` are what a function executes from its start up to `use`. -/
structure StraightLine (port : IdaPort) (is : List Instruction) (use : Nat) where
  funcEa : Nat
  graph : ConsistentCfg port funcEa
  source : graph.cfg.predecessors graph.entry = []
  lo : graph.entry.startEa ≤ use
  hi : use < graph.entry.endEa
  executed : before (graph.tile graph.entry) use = is

/-! ## Scanning with enough budget -/

def ResolutionBudget.spend (b : ResolutionBudget) (steps : Nat) : ResolutionBudget :=
  { b with stepsUsed := b.stepsUsed + steps }

@[simp] theorem ResolutionBudget.spend_spend (b : ResolutionBudget) (m n : Nat) :
    (b.spend m).spend n = b.spend (m + n) := by
  simp [spend, Nat.add_assoc]

/-- Within the limit a step is granted and counted. -/
theorem ResolutionBudget.step_spend {b : ResolutionBudget} (left : b.stepsUsed + 1 ≤ b.maxSteps) :
    b.step = (true, b.spend 1) := by
  simp [step, spend, left]

/-- What a `dereference` answers when it may spend a step. -/
def dereferenced (port : IdaPort) (addr : Int) (size : Nat) : ValueLattice :=
  match port.readInt addr size with
  | none => .memoryRef addr (.unknown' .memoryReadFailed)
  | some raw => .memoryRef addr (.concrete (.int raw) .int)

/-- A dereference costs one step and reads the image, if the step is granted. -/
theorem attempt_dereference {self : BackwardResolver} {addr : Int} {size : Nat}
    {b : ResolutionBudget} :
    attempt (handler self.port) none (self.dereference addr size) b =
      (some (if b.stepsUsed + 1 ≤ b.maxSteps then dereferenced self.port addr size
        else budgetExceeded), b.step.2) := by
  simp only [BackwardResolver.dereference, bind_eq, Query.step_bind, attempt_call, handler,
    ResolutionBudget.step, decide_eq_true_eq]
  split
  · unfold dereferenced
    cases self.port.readInt addr size <;> rfl
  · rfl

section Scan

/-- The port lists the row: every instruction decodes, and the head before it is the one in
front of it. -/
structure Heads (port : IdaPort) (lo : Nat) (row : List Instruction) : Prop where
  earlier : ∀ pre i post, row = pre ++ i :: post →
    port.prevHead i.ea lo = pre.getLast?.map (·.ea)
  decoded : ∀ i ∈ row, port.decodeAt i.ea = some i

variable {port : IdaPort} {lo : Nat} {row : List Instruction}
variable {find : Instruction → Option (Query ValueLattice)} {budget : ResolutionBudget}
variable {pre post rest is : List Instruction} {i : Instruction} {bound : Nat}

/-- One round of a scan. -/
theorem attempt_scanBack_cons (heads : Heads port lo row) (split : row = pre ++ i :: rest)
    (left : budget.stepsUsed + 1 ≤ budget.maxSteps) :
    attempt (handler port) none (scanBack port find lo (bound + 1) (some i.ea)) budget =
      attempt (handler port) none
        (match find i with
          | some definition => definition.bind fun v => .pure (some v)
          | none => scanBack port find lo bound (pre.getLast?.map (·.ea)))
        (budget.spend 1) := by
  have decoded := heads.decoded i (by simp [split])
  have next := heads.earlier pre i rest split
  simp only [scanBack, bind_eq, Query.step_bind, Query.get_bind, attempt_call, handler,
    budget.step_spend left, if_true, decoded, Option.bind_some, next]
  cases find i <;> rfl

/-- A scan over instructions that define nothing ends at the lower bound. -/
theorem attempt_scanBack_clear (heads : Heads port lo row) (split : row = is ++ rest)
    (clear : ∀ j ∈ is, find j = none) (deep : is.length ≤ bound)
    (left : budget.stepsUsed + is.length ≤ budget.maxSteps) :
    attempt (handler port) none (scanBack port find lo bound (is.getLast?.map (·.ea)))
      budget = (some none, budget.spend is.length) := by
  induction is using List.reverseRecOn generalizing rest bound budget with
  | nil => cases bound <;> rfl
  | append_singleton pre i ih =>
      rw [List.length_append, List.length_singleton] at deep left ⊢
      have split' : row = pre ++ i :: rest := by simp [split]
      cases bound with
      | zero => omega
      | succ bound =>
          have last : (pre ++ [i]).getLast?.map (·.ea) = some i.ea := by simp
          rw [last, attempt_scanBack_cons heads split' (by omega), clear i (by simp)]
          have earlier := @ih (budget.spend 1) (i :: rest) bound split'
            (fun j member => clear j (by simp [member])) (by omega)
            (by simp only [ResolutionBudget.spend]; omega)
          rw [earlier, ResolutionBudget.spend_spend, Nat.add_comm]

/-- A scan stops at the last definition and hands over its value. -/
theorem attempt_scanBack_found (heads : Heads port lo row)
    (split : row = (pre ++ i :: post) ++ rest) {definition : Query ValueLattice}
    (known : find i = some definition) (clear : ∀ j ∈ post, find j = none)
    (deep : post.length < bound) (left : budget.stepsUsed + (post.length + 1) ≤ budget.maxSteps) :
    attempt (handler port) none
        (scanBack port find lo bound ((pre ++ i :: post).getLast?.map (·.ea))) budget =
      attempt (handler port) none (definition.bind fun v => .pure (some v))
        (budget.spend (post.length + 1)) := by
  induction post using List.reverseRecOn generalizing rest bound budget with
  | nil =>
      have split' : row = pre ++ i :: rest := by simp [split]
      cases bound with
      | zero => omega
      | succ bound =>
          have last : (pre ++ [i]).getLast?.map (·.ea) = some i.ea := by simp
          rw [last, attempt_scanBack_cons heads split' (by simpa using left), known]
          rfl
  | append_singleton post j ih =>
      rw [List.length_append, List.length_singleton] at deep left ⊢
      have split' : row = (pre ++ i :: post) ++ j :: rest := by simp [split]
      cases bound with
      | zero => omega
      | succ bound =>
          have last : (pre ++ i :: (post ++ [j])).getLast?.map (·.ea) = some j.ea := by
            rw [← List.cons_append, ← List.append_assoc, List.getLast?_concat]
            rfl
          rw [last, attempt_scanBack_cons heads split' (by omega), clear j (by simp)]
          have earlier := @ih (budget.spend 1) (j :: rest) bound split'
            (fun k member => clear k (by simp [member])) (by omega)
            (by simp only [ResolutionBudget.spend]; omega)
          rw [earlier, ResolutionBudget.spend_spend, Nat.add_comm]

end Scan

/-! ## A block without predecessors -/

section Walk

variable {port : IdaPort} {funcEa : Nat} {G : ConsistentCfg port funcEa} {b : BasicBlockInfo}
variable {find : Instruction → Option (Query ValueLattice)} {budget : ResolutionBudget}
variable {pre post is : List Instruction} {i : Instruction} {bound : Nat}
variable {ρ : Type} {paths : Paths ρ} {loops boundary : Nat}

/-- The heads of a block are its instructions. -/
theorem ConsistentCfg.blockHeads (hb : b ∈ G.cfg.blocks) : Heads port b.startEa (G.tile b) := by
  constructor
  · intro pre i post split
    have bounds := (G.tiled b hb).bounds (i := i) (by simp [split])
    rw [G.heads b hb i.ea bounds.1 bounds.2.le, G.before_split hb split]
  · exact G.decoded b hb

/-- In a block without predecessors that defines nothing, the walk ends. -/
theorem attempt_walkBlock_clear (hb : b ∈ G.cfg.blocks) (source : G.cfg.predecessors b = [])
    (lo : b.startEa ≤ boundary) (hi : boundary ≤ b.endEa)
    (executed : before (G.tile b) boundary = is) (clear : ∀ j ∈ is, find j = none)
    (deep : is.length ≤ loops) (left : budget.stepsUsed + is.length ≤ budget.maxSteps) :
    attempt (handler port) none (walkBlock paths port G.cfg find loops (bound + 1) boundary b [])
      budget = (some paths.noPredecessor, budget.spend is.length) := by
  rcases (G.tiled b hb).before_extends boundary with ⟨rest, split⟩
  rw [executed] at split
  simp only [walkBlock, bind_eq, G.heads b hb boundary lo hi, executed]
  rw [attempt_bind (attempt_scanBack_clear (G.blockHeads hb) split.symm clear deep left)]
  simp only [List.not_mem_nil, if_false, source, if_true]
  rfl

/-- A definition in the block ends the walk. -/
theorem attempt_walkBlock_found (hb : b ∈ G.cfg.blocks) (lo : b.startEa ≤ boundary)
    (hi : boundary ≤ b.endEa) (executed : before (G.tile b) boundary = pre ++ i :: post)
    {definition : Query ValueLattice} {v : ValueLattice} {budget' : ResolutionBudget}
    (known : find i = some definition) (clear : ∀ j ∈ post, find j = none)
    (deep : post.length < loops) (left : budget.stepsUsed + (post.length + 1) ≤ budget.maxSteps)
    (computed : attempt (handler port) none definition (budget.spend (post.length + 1)) =
      (some v, budget')) :
    attempt (handler port) none (walkBlock paths port G.cfg find loops (bound + 1) boundary b [])
      budget = (some (paths.ofValue v), budget') := by
  rcases (G.tiled b hb).before_extends boundary with ⟨rest, split⟩
  rw [executed] at split
  have scanned := attempt_scanBack_found (G.blockHeads hb) split.symm known clear deep left
  rw [attempt_map, computed] at scanned
  simp only [walkBlock, bind_eq, G.heads b hb boundary lo hi, executed]
  rw [attempt_bind scanned]
  rfl

end Walk

/-! ## Queries -/

/-- What the program returns from a fresh budget is the answer. -/
theorem answer_of_attempt {self : BackwardResolver} {q : PublicQuery} {v : ValueLattice}
    {b : ResolutionBudget}
    (ran : attempt (handler self.port) none (self.program self.fuel q) self.freshBudget =
      (some v, b)) : self.answer q = some v := by
  rcases query_bounded self q with ⟨w, b', t, every, -⟩
  have whole := every self.fuel (Nat.le_refl _)
  have same := (attempt_of_run whole).symm.trans ran
  cases same
  rw [answer_eq, whole]
  rfl

section Impl

variable {self : BackwardResolver} {is pre post : List Instruction} {i : Instruction} {use : Nat}
variable {cb : Callbacks} {loops : Nat} {budget budget' : ResolutionBudget}
variable {v : ValueLattice} {f : Finding}

/-- The use lies in the one block. -/
theorem StraightLine.useBlock (line : StraightLine self.port is use) :
    BackwardResolver.useBlock (buildCfg self.port line.funcEa) use = some line.graph.entry :=
  @useBlock_eq self line.funcEa line.graph line.graph.entry line.graph.entry_mem use line.lo line.hi

/-- The last definition of the register before the use decides. -/
theorem StraightLine.registerImpl_found (line : StraightLine self.port is use)
    (split : is = pre ++ i :: post) {q : Nat} (found : registerFinding self.port i q = some f)
    (clear : ∀ j ∈ post, registerFinding self.port j q = none) (deep : post.length < loops)
    (left : budget.stepsUsed + (post.length + 2) ≤ budget.maxSteps)
    (computed : attempt (handler self.port) none (self.settle cb i line.funcEa f)
      (budget.spend (post.length + 2)) = (some v, budget')) :
    attempt (handler self.port) none (self.resolveRegisterImpl loops cb (some q) use) budget =
      (some v, budget') := by
  have hb := line.graph.entry_mem
  have inBlock := line.useBlock
  rcases Nat.exists_eq_succ_of_ne_zero (Nat.ne_zero_of_lt deep) with ⟨bound, rfl⟩
  have known : self.matchRegisterDefinition cb q line.funcEa i =
      some (self.settle cb i line.funcEa f) := by
    rw [BackwardResolver.matchRegisterDefinition, found]
    rfl
  have missed : ∀ j ∈ post, self.matchRegisterDefinition cb q line.funcEa j = none := by
    intro j member
    rw [BackwardResolver.matchRegisterDefinition, clear j member]
    rfl
  have walked := @attempt_walkBlock_found _ _ line.graph _ _ (budget.spend 1) _ _ _ bound _
    registerPaths _ use hb line.lo line.hi.le (line.executed.trans split) _ v budget' known missed
    deep (by simp only [ResolutionBudget.spend]; omega)
    (by rw [ResolutionBudget.spend_spend, Nat.add_comm 1]; exact computed)
  simp only [BackwardResolver.resolveRegisterImpl, bind_eq, Query.step_bind, Query.funcEaFor_bind,
    Query.cfgFor_bind, attempt_call, handler, budget.step_spend (by omega), if_true,
    line.graph.owner _ hb use line.lo line.hi, inBlock,
    BackwardResolver.walkRegisterBlock]
  rw [attempt_bind walked]
  rfl

/-- Without a definition of the register the query finds nothing. -/
theorem StraightLine.registerImpl_clear (line : StraightLine self.port is use) {q : Nat}
    (clear : ∀ j ∈ is, registerFinding self.port j q = none) (deep : is.length < loops)
    (left : budget.stepsUsed + (is.length + 1) ≤ budget.maxSteps) :
    attempt (handler self.port) none (self.resolveRegisterImpl loops cb (some q) use) budget =
      (some (.unknown' .noDefinitionFound), budget.spend (is.length + 1)) := by
  have hb := line.graph.entry_mem
  have inBlock := line.useBlock
  rcases Nat.exists_eq_succ_of_ne_zero (Nat.ne_zero_of_lt deep) with ⟨bound, rfl⟩
  have missed : ∀ j ∈ is, self.matchRegisterDefinition cb q line.funcEa j = none := by
    intro j member
    rw [BackwardResolver.matchRegisterDefinition, clear j member]
    rfl
  have walked := @attempt_walkBlock_clear _ _ line.graph _ _ (budget.spend 1) is bound _
    registerPaths _ use hb line.source line.lo line.hi.le line.executed missed deep.le
    (by simp only [ResolutionBudget.spend]; omega)
  simp only [BackwardResolver.resolveRegisterImpl, bind_eq, Query.step_bind, Query.funcEaFor_bind,
    Query.cfgFor_bind, attempt_call, handler, budget.step_spend (by omega), if_true,
    line.graph.owner _ hb use line.lo line.hi, inBlock,
    BackwardResolver.walkRegisterBlock]
  rw [attempt_bind walked, ResolutionBudget.spend_spend, Nat.add_comm 1]
  rfl

/-- The last definition of the cell before the use decides. -/
theorem StraightLine.memoryImpl_found (line : StraightLine self.port is use)
    (split : is = pre ++ i :: post) {base : Option Nat} {disp : Int} {size : Nat} {key : MemoryKey}
    (located : memoryLocation self.port base disp use line.funcEa = key)
    (found : memoryFinding self.port i key line.funcEa = some f)
    (clear : ∀ j ∈ post, memoryFinding self.port j key line.funcEa = none)
    (deep : post.length < loops) (left : budget.stepsUsed + (post.length + 2) ≤ budget.maxSteps)
    (computed : attempt (handler self.port) none (self.settle cb i line.funcEa f)
      (budget.spend (post.length + 2)) = (some v, budget')) :
    attempt (handler self.port) none (self.resolveMemoryImpl loops cb base disp use size) budget =
      (some v, budget') := by
  have hb := line.graph.entry_mem
  have inBlock := line.useBlock
  rcases Nat.exists_eq_succ_of_ne_zero (Nat.ne_zero_of_lt deep) with ⟨bound, rfl⟩
  have known : self.matchMemoryDefinition cb key line.funcEa i =
      some (self.settle cb i line.funcEa f) := by
    rw [BackwardResolver.matchMemoryDefinition, found]
    rfl
  have missed : ∀ j ∈ post, self.matchMemoryDefinition cb key line.funcEa j = none := by
    intro j member
    rw [BackwardResolver.matchMemoryDefinition, clear j member]
    rfl
  have walked := @attempt_walkBlock_found _ _ line.graph _ _ (budget.spend 1) _ _ _ bound _
    memoryPaths _ use hb line.lo line.hi.le (line.executed.trans split) _ v budget' known missed
    deep (by simp only [ResolutionBudget.spend]; omega)
    (by rw [ResolutionBudget.spend_spend, Nat.add_comm 1]; exact computed)
  have searched : attempt (handler self.port) none
      (self.searchMemory (bound + 1) cb base disp use) (budget.spend 1) =
      (some (.value v), budget') := by
    simp only [BackwardResolver.searchMemory, bind_eq, Query.funcEaFor_bind, Query.cfgFor_bind,
      attempt_call, handler, line.graph.owner _ hb use line.lo line.hi,
      inBlock, BackwardResolver.walkMemoryBlock, located]
    exact walked
  simp only [BackwardResolver.resolveMemoryImpl, bind_eq, Query.step_bind, attempt_call, handler,
    budget.step_spend (by omega), if_true]
  rw [attempt_bind searched]
  rfl

/-- Without a definition of the cell the query goes on to the fallback. -/
theorem StraightLine.memoryImpl_clear (line : StraightLine self.port is use) {base : Option Nat}
    {disp : Int} {size : Nat}
    (clear : ∀ j ∈ is, memoryFinding self.port j
      (memoryLocation self.port base disp use line.funcEa) line.funcEa = none)
    (deep : is.length < loops) (left : budget.stepsUsed + (is.length + 1) ≤ budget.maxSteps) :
    attempt (handler self.port) none (self.resolveMemoryImpl loops cb base disp use size) budget =
      attempt (handler self.port) none (self.fallbackDereference loops cb base disp use size)
        (budget.spend (is.length + 1)) := by
  have hb := line.graph.entry_mem
  have inBlock := line.useBlock
  rcases Nat.exists_eq_succ_of_ne_zero (Nat.ne_zero_of_lt deep) with ⟨bound, rfl⟩
  have missed : ∀ j ∈ is, self.matchMemoryDefinition cb
      (memoryLocation self.port base disp use line.funcEa) line.funcEa j = none := by
    intro j member
    rw [BackwardResolver.matchMemoryDefinition, clear j member]
    rfl
  have walked := @attempt_walkBlock_clear _ _ line.graph _ _ (budget.spend 1) is bound _
    memoryPaths _ use hb line.source line.lo line.hi.le line.executed missed deep.le
    (by simp only [ResolutionBudget.spend]; omega)
  have searched : attempt (handler self.port) none
      (self.searchMemory (bound + 1) cb base disp use) (budget.spend 1) =
      (some .notFound, budget.spend (is.length + 1)) := by
    simp only [BackwardResolver.searchMemory, bind_eq, Query.funcEaFor_bind, Query.cfgFor_bind,
      attempt_call, handler, line.graph.owner _ hb use line.lo line.hi,
      inBlock, BackwardResolver.walkMemoryBlock]
    rw [Nat.add_comm is.length, ← ResolutionBudget.spend_spend]
    exact walked
  simp only [BackwardResolver.resolveMemoryImpl, bind_eq, Query.step_bind, attempt_call, handler,
    budget.step_spend (by omega), if_true]
  rw [attempt_bind searched]

/-! ## What any limits report -/

/-- The definition computes `v`, under any limits and without spending anything. -/
def Decides (self : BackwardResolver) (i : Instruction) (funcEa : Nat) (f : Finding)
    (v : ValueLattice) : Prop :=
  ∀ steps blocks cb budget, attempt (handler self.port) none
    ((self.withLimits steps blocks).settle cb i funcEa f) budget = (some v, budget)

/-- A register query at the use goes back over `is`, and finds nothing in front of it. -/
structure RegisterScan (port : IdaPort) (is : List Instruction) (use funcEa : Nat) : Prop where
  found : ∀ {self : BackwardResolver}, self.port = port →
    ∀ {pre post : List Instruction} {i : Instruction} {q loops : Nat} {cb : Callbacks}
      {budget budget' : ResolutionBudget} {v : ValueLattice} {f : Finding},
      is = pre ++ i :: post → registerFinding port i q = some f →
      (∀ j ∈ post, registerFinding port j q = none) → post.length < loops →
      budget.stepsUsed + (post.length + 2) ≤ budget.maxSteps →
      attempt (handler port) none (self.settle cb i funcEa f)
        (budget.spend (post.length + 2)) = (some v, budget') →
      attempt (handler port) none (self.resolveRegisterImpl loops cb (some q) use) budget =
        (some v, budget')
  clear : ∀ {self : BackwardResolver}, self.port = port →
    ∀ {q loops : Nat} {cb : Callbacks} {budget : ResolutionBudget},
      (∀ j ∈ is, registerFinding port j q = none) → is.length < loops →
      budget.stepsUsed + (is.length + 1) ≤ budget.maxSteps →
      attempt (handler port) none (self.resolveRegisterImpl loops cb (some q) use) budget =
        (some (.unknown' .noDefinitionFound), budget.spend (is.length + 1))

/-- A straight line is a scan for every register. -/
theorem StraightLine.registerScan {port : IdaPort} (line : StraightLine port is use) :
    RegisterScan port is use line.funcEa := by
  constructor
  · intro self same pre post i q loops cb budget budget' v f split
    subst same
    exact line.registerImpl_found split
  · intro self same
    subst same
    exact line.registerImpl_clear

namespace RegisterScan

variable {funcEa q : Nat}

theorem eq (scan : RegisterScan self.port is use funcEa) (split : is = pre ++ i :: post)
    (found : registerFinding self.port i q = some f)
    (clear : ∀ j ∈ post, registerFinding self.port j q = none)
    (decides : Decides self i funcEa f v) (enough : post.length + 2 ≤ self.maxSteps) :
    self.answer (.register q use) = some v := by
  apply answer_of_attempt
  refine scan.found rfl split found clear ?_ ?_ (decides self.maxSteps self.maxBlocks _ _)
  · simp only [BackwardResolver.fuel]
    omega
  · simpa [BackwardResolver.freshBudget] using enough

/-- A known answer of any limits is the value of the last definition. -/
theorem known (scan : RegisterScan self.port is use funcEa)
    (strict : ∀ l ∈ self.registry.all, l.Strict) (split : is = pre ++ i :: post)
    (found : registerFinding self.port i q = some f)
    (clear : ∀ j ∈ post, registerFinding self.port j q = none)
    (decides : Decides self i funcEa f v) {w : ValueLattice} (known : w.isKnown)
    (answered : self.answer (.register q use) = some w) : w = v := by
  have larger := answer_withLimits strict (Nat.le_add_right self.maxSteps (post.length + 2))
    (Nat.le_refl _) known answered
  have decided := @RegisterScan.eq
    (self.withLimits (self.maxSteps + (post.length + 2)) self.maxBlocks) is pre post i use v f
    funcEa q scan split found clear (fun steps blocks => decides steps blocks)
    (Nat.le_add_left _ _)
  exact Option.some.inj (larger.symm.trans decided)

theorem none (scan : RegisterScan self.port is use funcEa)
    (strict : ∀ l ∈ self.registry.all, l.Strict)
    (clear : ∀ j ∈ is, registerFinding self.port j q = none) {w : ValueLattice}
    (answered : self.answer (.register q use) = some w) : w.isKnown = false := by
  by_contra known
  rw [Bool.not_eq_false] at known
  have larger := answer_withLimits strict (Nat.le_add_right self.maxSteps (is.length + 1))
    (Nat.le_refl _) known answered
  have decided : (self.withLimits (self.maxSteps + (is.length + 1)) self.maxBlocks).answer
      (.register q use) = some (.unknown' .noDefinitionFound) := by
    apply answer_of_attempt
    refine scan.clear rfl clear ?_ ?_
    · simp only [BackwardResolver.fuel, BackwardResolver.withLimits]
      omega
    · simp [BackwardResolver.freshBudget, BackwardResolver.withLimits]
  rw [Option.some.inj (larger.symm.trans decided)] at known
  cases known

end RegisterScan

/-- A memory query is answered by the last definition of the cell, given steps enough. -/
theorem StraightLine.memory_eq (line : StraightLine self.port is use)
    (split : is = pre ++ i :: post) {base : Option Nat} {disp : Int} {size : Nat} {key : MemoryKey}
    (located : memoryLocation self.port base disp use line.funcEa = key)
    (found : memoryFinding self.port i key line.funcEa = some f)
    (clear : ∀ j ∈ post, memoryFinding self.port j key line.funcEa = none)
    (decides : Decides self i line.funcEa f v) (enough : post.length + 2 ≤ self.maxSteps) :
    self.answer (.memory base disp use size) = some v := by
  apply answer_of_attempt
  refine @StraightLine.memoryImpl_found self is pre post i use _ _ self.freshBudget
    (self.freshBudget.spend (post.length + 2)) v f line split base disp size key located found
    clear ?_ ?_ (decides self.maxSteps self.maxBlocks _ _)
  · simp only [BackwardResolver.fuel]
    omega
  · simpa [BackwardResolver.freshBudget] using enough

/-- A known answer to a memory query comes from the last definition of the cell. -/
theorem StraightLine.memory_known (line : StraightLine self.port is use)
    (strict : ∀ l ∈ self.registry.all, l.Strict) (split : is = pre ++ i :: post)
    {base : Option Nat} {disp : Int} {size : Nat} {key : MemoryKey}
    (located : memoryLocation self.port base disp use line.funcEa = key)
    (found : memoryFinding self.port i key line.funcEa = some f)
    (clear : ∀ j ∈ post, memoryFinding self.port j key line.funcEa = none)
    (decides : Decides self i line.funcEa f v) {w : ValueLattice} (known : w.isKnown)
    (answered : self.answer (.memory base disp use size) = some w) : w = v := by
  have larger := answer_withLimits strict (Nat.le_add_right self.maxSteps (post.length + 2))
    (Nat.le_refl _) known answered
  have decided := @StraightLine.memory_eq
    (self.withLimits (self.maxSteps + (post.length + 2)) self.maxBlocks) is pre post i use v f line
    split base disp size key located found clear (fun steps blocks => decides steps blocks)
    (Nat.le_add_left _ _)
  exact Option.some.inj (larger.symm.trans decided)

/-- Where no instruction writes the cell, nothing concrete is reported: at most the static
content of an address. -/
theorem StraightLine.memory_none (line : StraightLine self.port is use)
    (strict : ∀ l ∈ self.registry.all, l.Strict) {base : Option Nat} {disp : Int} {size : Nat}
    (clear : ∀ j ∈ is, memoryFinding self.port j
      (memoryLocation self.port base disp use line.funcEa) line.funcEa = none) {w : ValueLattice}
    (answered : self.answer (.memory base disp use size) = some w) (d : Datum) (k : ValueKind) :
    w ≠ .concrete d k := by
  intro same
  subst same
  have larger := answer_withLimits strict (Nat.le_add_right self.maxSteps (is.length + 1))
    (Nat.le_refl _) (v := .concrete d k) (Eq.refl true) answered
  rcases query_bounded (self.withLimits (self.maxSteps + (is.length + 1)) self.maxBlocks)
    (.memory base disp use size) with ⟨v, b, t, every, -⟩
  have ran := every _ (Nat.le_refl _)
  rw [answer_eq, ran] at larger
  obtain rfl : v = .concrete d k := Option.some.inj larger
  have whole := attempt_of_run ran
  have cleared := @StraightLine.memoryImpl_clear
    (self.withLimits (self.maxSteps + (is.length + 1)) self.maxBlocks) is use
    ((self.withLimits (self.maxSteps + (is.length + 1)) self.maxBlocks).callbacks
      (self.withLimits (self.maxSteps + (is.length + 1)) self.maxBlocks).fuel
      (self.maxSteps + (is.length + 1) + self.maxBlocks + 1))
    (self.withLimits (self.maxSteps + (is.length + 1)) self.maxBlocks).fuel
    (self.withLimits (self.maxSteps + (is.length + 1)) self.maxBlocks).freshBudget line base disp
    size clear (by simp only [BackwardResolver.fuel, BackwardResolver.withLimits]; omega)
    (by simp [BackwardResolver.freshBudget, BackwardResolver.withLimits])
  rcases exec_of_attempt (cleared.symm.trans whole) with ⟨t', exec⟩
  exact fallbackDereference_silent exec d k rfl

/-! ## Definitions that ask for nothing -/

/-- A finding that is reported as it is decides at once. -/
theorem decides_report (self : BackwardResolver) (i : Instruction) (funcEa : Nat)
    (v : ValueLattice) : Decides self i funcEa (.report v) v :=
  fun _ _ _ _ => rfl

/-- An extraction that has its value decides. -/
theorem decides_resolved {l : Locator} {funcEa dest : Nat}
    (matched : self.registry.findMatch i = some l)
    (extracted : l.extract self.port (some funcEa) i dest = Extraction.resolved v) :
    Decides self i funcEa (.interpret dest) v := by
  intro steps blocks cb budget
  have matched' : (self.withLimits steps blocks).registry.findMatch i = some l := matched
  have extracted' : l.extract (self.withLimits steps blocks).port (some funcEa) i dest =
      Extraction.resolved v := extracted
  simp only [BackwardResolver.settle, BackwardResolver.interpretDefinition, matched',
    BackwardResolver.safeExtract, extracted']
  rfl

/-- The number that an immediate moves to a register is known without another query. -/
theorem decides_movImm (builtin : self.registry = defaultRegistry) {a b : Operand}
    (mnem : i.mnem = "mov") (pair : Pair i a b true false) (dest : a.kind = .reg)
    (imm : b.kind = .immediate) {n : Int} (value : b.immValue = some n) (funcEa : Nat) :
    Decides self i funcEa (.interpret 0) (.concrete (.int n) .int) := by
  have matched := findMatch_movImm mnem pair dest imm
  rw [← builtin] at matched
  refine decides_resolved matched ?_
  rw [movRegImm_extract pair.operand_one, value]
  rfl

/-- An instruction whose locator asks for nothing is answered in one step. -/
theorem answer_atInstruction {l : Locator} {ea : Nat} (decoded : self.port.decodeAt ea = some i)
    (matched : self.registry.findMatch i = some l)
    (extracted : ∀ owner, l.extract self.port owner i 0 = Extraction.resolved v)
    (enough : 1 ≤ self.maxSteps) : self.answer (.atInstruction ea 0) = some v := by
  apply answer_of_attempt (b := self.freshBudget.step.2)
  have left : self.freshBudget.step.1 = true := by
    simpa [BackwardResolver.freshBudget, ResolutionBudget.step] using enough
  simp only [BackwardResolver.program, BackwardResolver.instructionQuery,
    BackwardResolver.resolveAtInstructionImpl, bind_eq, Query.step_bind, Query.get_bind,
    Query.funcEaFor_bind, attempt_call, handler, left, if_true, decoded,
    BackwardResolver.interpretDefinition, matched, BackwardResolver.safeExtract, extracted]
  rfl

/-- The scan for pushes sees the instructions that were executed. -/
theorem StraightLine.headsBefore {port : IdaPort} (line : StraightLine port is use) :
    HeadsBefore port line.funcEa use is := by
  have hb := line.graph.entry_mem
  have start := line.graph.entry_startEa
  rcases (line.graph.tiled _ hb).before_extends use with ⟨rest, split⟩
  rw [line.executed] at split
  have bounds : ∀ i ∈ is, line.graph.entry.startEa ≤ i.ea ∧ i.ea < line.graph.entry.endEa :=
    fun i member => (line.graph.tiled _ hb).bounds (by simp [← split, member])
  refine ⟨line.graph.owner _ hb use line.lo line.hi, ?_, ?_, ?_⟩
  · have heads := line.graph.heads _ hb use line.lo line.hi.le
    rwa [start, line.executed] at heads
  · intro pre i post inside
    have inner := bounds i (by simp [inside])
    have heads := line.graph.heads _ hb i.ea inner.1 inner.2.le
    have whole : line.graph.tile line.graph.entry = pre ++ i :: (post ++ rest) := by
      rw [← split, inside]
      simp
    rwa [start, line.graph.before_split hb whole] at heads
  · intro i member
    exact line.graph.decoded _ hb i (by simp [← split, member])

end Impl

/-! ## A function that is one row of instructions -/

/-- The port `base`, seeing nothing but a function that is the row `is`. -/
def linePort (base : IdaPort) (lo hi : Nat) (is : List Instruction) : IdaPort :=
  { base with
    decodeAt := fun ea => is.find? (·.ea = ea)
    prevHead := fun ea minEa =>
      (before (is.filter fun i => minEa ≤ i.ea) ea).getLast?.map (·.ea)
    getFuncStart := fun ea => if lo ≤ ea ∧ ea < hi then some lo else none
    getFlowchartBlocks := fun funcEa => if funcEa = lo then [⟨lo, hi, [], []⟩] else [] }

section Line

variable {base : IdaPort} {lo hi : Nat} {is rest : List Instruction} {i : Instruction}

/-- Tiled instructions are found by their addresses. -/
theorem Tiles.find_eq (tiles : Tiles lo is hi) (member : i ∈ is) :
    is.find? (·.ea = i.ea) = some i := by
  induction tiles with
  | nil => cases member
  | @cons j is hi positive tail ih =>
      rcases List.mem_cons.mp member with rfl | later
      · simp
      · have bounds := tail.bounds later
        have other : j.ea ≠ i.ea := by
          simp only [Instruction.nextEa] at bounds
          omega
        simp [other, ih later]

def lineGraph (base : IdaPort) (tiles : Tiles lo is hi) (lt : lo < hi) :
    ConsistentCfg (linePort base lo hi is) lo where
  tile _ := is
  entry := ⟨lo, hi, [], []⟩
  entry_mem := by simp [buildCfg, linePort]
  entry_startEa := rfl
  nonempty := by
    intro b member
    obtain rfl : b = ⟨lo, hi, [], []⟩ := by simpa [buildCfg, linePort] using member
    exact lt
  disjoint := by
    intro b hb c hc different
    have left : b = ⟨lo, hi, [], []⟩ := by simpa [buildCfg, linePort] using hb
    have right : c = ⟨lo, hi, [], []⟩ := by simpa [buildCfg, linePort] using hc
    exact (different (left.trans right.symm)).elim
  converse := by
    intro b hb c hc
    obtain rfl : b = ⟨lo, hi, [], []⟩ := by simpa [buildCfg, linePort] using hb
    obtain rfl : c = ⟨lo, hi, [], []⟩ := by simpa [buildCfg, linePort] using hc
    simp
  tiled := by
    intro b member
    obtain rfl : b = ⟨lo, hi, [], []⟩ := by simpa [buildCfg, linePort] using member
    exact tiles
  decoded := fun _ _ i member => tiles.find_eq member
  heads := by
    intro b member ea _ _
    obtain rfl : b = ⟨lo, hi, [], []⟩ := by simpa [buildCfg, linePort] using member
    have whole : is.filter (fun i => lo ≤ i.ea) = is :=
      List.filter_eq_self.mpr fun j inside => by simpa using (tiles.bounds inside).1
    simp only [linePort, whole]
  owner := by
    intro b member ea low high
    obtain rfl : b = ⟨lo, hi, [], []⟩ := by simpa [buildCfg, linePort] using member
    simp only [linePort, low, high, and_self, if_true]

/-- Up to any of its instructions, the row is a straight line. -/
def straightLine (base : IdaPort) (tiles : Tiles lo (is ++ i :: rest) hi) :
    StraightLine (linePort base lo hi (is ++ i :: rest)) is i.ea where
  funcEa := lo
  graph := lineGraph base tiles (by
    have bounds := tiles.bounds (i := i) (by simp)
    omega)
  source := rfl
  lo := (tiles.bounds (i := i) (by simp)).1
  hi := (tiles.bounds (i := i) (by simp)).2
  executed := tiles.before_split

/-! ## Rows laid out one address after the other -/

/-- Each instruction is given by its address and is one byte long. -/
def layOut (ea : Nat) : List (Nat → Instruction) → List Instruction
  | [] => []
  | f :: fs => f ea :: layOut (ea + 1) fs

/-- The instructions stand where they are laid out. -/
def UnitSized (fs : List (Nat → Instruction)) : Prop :=
  ∀ f ∈ fs, ∀ ea, (f ea).ea = ea ∧ (f ea).size = 1

/-- Instructions of one byte each, laid out in a row, tile it. -/
theorem layOut_tiles {fs : List (Nat → Instruction)} (unit : UnitSized fs) (ea : Nat) :
    Tiles ea (layOut ea fs) (ea + fs.length) := by
  induction fs generalizing ea with
  | nil => exact .nil ea
  | cons f fs ih =>
      have head := unit f List.mem_cons_self ea
      have tail := ih (fun g member => unit g (List.mem_cons_of_mem _ member)) (ea + 1)
      have next : (f ea).nextEa = ea + 1 := by rw [Instruction.nextEa, head.1, head.2]
      have tiles : Tiles (f ea).ea (layOut ea (f :: fs)) (ea + 1 + fs.length) := by
        apply Tiles.cons
        · rw [head.2]
          exact Nat.one_pos
        · rw [next]
          exact tail
      rw [List.length_cons, Nat.add_comm fs.length, ← Nat.add_assoc]
      rwa [head.1] at tiles

/-- Two rows one after the other are laid out as one. -/
theorem layOut_append (ea : Nat) (fs gs : List (Nat → Instruction)) :
    layOut ea (fs ++ gs) = layOut ea fs ++ layOut (ea + fs.length) gs := by
  induction fs generalizing ea with
  | nil => rfl
  | cons f fs ih =>
      rw [List.cons_append, layOut, ih, layOut, List.cons_append, List.length_cons,
        Nat.add_right_comm, Nat.add_assoc]

/-- A row laid out from data relates to the data, position by position. -/
theorem forall₂_layOut_at {α : Type} {R : Instruction → α → Prop} {f : α → Nat → Instruction}
    {as : List α} {ea : Nat} (each : ∀ k a, as[k]? = some a → R (f a (ea + k)) a) :
    List.Forall₂ R (layOut ea (as.map f)) as := by
  induction as generalizing ea with
  | nil => exact .nil
  | cons a as ih =>
      refine .cons (each 0 a rfl) (ih ?_)
      intro k b found
      rw [Nat.add_assoc, Nat.add_comm 1]
      exact each (k + 1) b found

/-- A row laid out from data relates to the data when each instruction does wherever it stands. -/
theorem forall₂_layOut {α : Type} {R : Instruction → α → Prop} {f : α → Nat → Instruction}
    {as : List α} (each : ∀ a ∈ as, ∀ ea, R (f a ea) a) (ea : Nat) :
    List.Forall₂ R (layOut ea (as.map f)) as :=
  forall₂_layOut_at fun k a found => each a (List.mem_of_getElem? found) (ea + k)

/-- An instruction to ask a question at. -/
def useAt (ea : Nat) : Instruction where
  ea
  mnem := "ret"
  size := 1
  isControlTransfer := true

/-- A port that knows nothing of its processor. -/
def blankPort : IdaPort where
  decodeAt _ := none
  prevHead _ _ := none
  getFuncStart _ := none
  getFlowchartBlocks _ := []
  readInt _ _ := none
  getSpDelta _ _ := none
  pointerSize := 8
  stackPointerReg := none
  framePointerReg := none
  callClobberedRegisters := []
  registerView _ _ := none
  returnValueReg := none

/-- A row from address 0 and an instruction behind it. -/
theorem layOut_tiles_concat {fs : List (Nat → Instruction)} (unit : UnitSized fs)
    {last : Nat → Instruction} (unit' : UnitSized [last]) :
    Tiles 0 (layOut 0 fs ++ [last fs.length]) (fs.length + 1) := by
  have whole : UnitSized (fs ++ [last]) := by
    intro f member
    rcases List.mem_append.mp member with inside | final
    · exact unit f inside
    · exact unit' f final
  have tiles := layOut_tiles whole 0
  rwa [layOut_append, List.length_append, Nat.zero_add, Nat.zero_add] at tiles

/-- The port `base`, seeing the row from address 0 and an instruction behind it. -/
def rowPort (base : IdaPort) (fs : List (Nat → Instruction)) : IdaPort :=
  linePort base 0 (fs.length + 1) (layOut 0 fs ++ [useAt fs.length])

theorem useAt_unitSized : UnitSized [useAt] := by
  intro f member ea
  rw [List.mem_singleton.mp member]
  exact ⟨rfl, rfl⟩

def rowLine (base : IdaPort) {fs : List (Nat → Instruction)} (unit : UnitSized fs) :
    StraightLine (rowPort base fs) (layOut 0 fs) fs.length :=
  straightLine base (layOut_tiles_concat unit useAt_unitSized)

end Line

end IDAnalysister
