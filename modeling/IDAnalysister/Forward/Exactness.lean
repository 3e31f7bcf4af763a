import IDAnalysister.Adapters.FakePort
import IDAnalysister.Forward.Worklist

/-!
# What the forward walk computes

On a consistent function a walk that no limit cuts short records the greatest solution
of the dataflow problem, whatever the order of its worklist and wherever widening set
in, and a known answer is the value along every path to the target.
-/

namespace IDAnalysister

open Dataflow ForwardSymbolicEngine

/-! ## A walk that no limit cuts short -/

namespace ForwardSymbolicEngine

variable {self : ForwardSymbolicEngine} {builtin : self.registry = defaultRegistry}
variable {bound start : Nat} {walk : Walk} {w w' : WalkState} {rest : List Nat}

/-- No block was popped more often than the visit limit allows. -/
def WithinVisits (self : ForwardSymbolicEngine) (w : WalkState) : Prop :=
  ∀ n, exceeds self.maxBlockVisits (w.visitCounts n) = false

/-- A pop counts as a visit if it finds a block. -/
theorem Visited.counts (visited : self.Visited bound walk w start rest w') (n : Nat) :
    w'.visitCounts n =
      w.visitCounts n + if n = start ∧ (walk.cfg.byStart start).isSome then 1 else 0 := by
  have counted {block : BasicBlockInfo} (found : walk.cfg.byStart start = some block) :
      w.counted start n =
        w.visitCounts n + if n = start ∧ (walk.cfg.byStart start).isSome then 1 else 0 := by
    unfold WalkState.counted
    by_cases here : n = start
    · subst here
      rw [Function.update_self, found]
      simp
    · rw [Function.update_of_ne here, if_neg fun both => here both.1]
      rfl
  cases visited with
  | noBlock missing => simp [missing]
  | refused found _ => exact counted found
  | unavailable found _ => exact counted found
  | unchanged found _ _ => exact counted found
  | updated found _ _ _ _ _ => exact counted found

/-- Counts never go down. -/
theorem Visited.counts_le (visited : self.Visited bound walk w start rest w') (n : Nat) :
    w.visitCounts n ≤ w'.visitCounts n := by
  rw [visited.counts]
  omega

/-- Popping a block counts it once. -/
theorem Visited.counts_start (visited : self.Visited bound walk w start rest w')
    {block : BasicBlockInfo} (found : walk.cfg.byStart start = some block) :
    w'.visitCounts start = w.visitCounts start + 1 := by
  simp [visited.counts, found]

/-- Only the starts of blocks have visits. -/
theorem visitCounts_of_missing
    (passes : Loop.Passes finished (self.visit bound walk) walk.start w) {n : Nat}
    (missing : walk.cfg.byStart n = none) : w.visitCounts n = 0 := by
  induction passes with
  | refl => rfl
  | tail _ last ih =>
      rcases visited_of_pass last with ⟨_, start, rest, _, visited⟩
      rw [visited.counts, ih]
      by_cases here : n = start
      · subst here
        simp [missing]
      · simp [here]

/-- It is enough to look at the blocks to know that no limit was reached. -/
theorem withinVisits_of_run (run : self.runWorklist bound walk = some w)
    (blocks : ∀ b ∈ walk.cfg.blocks,
      exceeds self.maxBlockVisits (w.visitCounts b.startEa) = false) :
    self.WithinVisits w := by
  intro n
  cases found : walk.cfg.byStart n with
  | none =>
      rw [visitCounts_of_missing (Loop.passes_of_run run).1 found]
      cases self.maxBlockVisits <;> simp [exceeds]
  | some b =>
      rw [← CfgModel.byStart_startEa found]
      exact blocks b (CfgModel.byStart_mem found)

/-- What holds of the iteration as long as no pop is refused. -/
structure Exact {engine : ForwardSymbolicEngine} (builtin : engine.registry = defaultRegistry)
    (walk : Walk) (w : WalkState) : Prop where
  settling : (engine.systemOf builtin walk).Settling (progress w)
  covering : (engine.systemOf builtin walk).Covering (progress w)
  above : (engine.systemOf builtin walk).AboveSolutions w.inStates

/-- A walk starts exact. -/
theorem exact_start (builtin : self.registry = defaultRegistry) (walk : Walk) :
    Exact builtin walk walk.start := by
  constructor
  · intro v _
    right
    intro x known
    cases known
  · intro v
    by_cases entry : v = walk.entry.startEa
    · exact Or.inl (by simp [progress, Walk.start, entry])
    · right
      intro reached
      rcases reached with same | ⟨_, p, x, _, known, _⟩
      · exact (entry same).elim
      · cases known
  · intro X _ v x known
    cases known

/-- Every pass within the visit limit keeps the walk exact. -/
theorem exact_of_passes (proper : walk.Proper) (converse : walk.cfg.Converse)
    (passes : Loop.Passes finished (self.visit bound walk) walk.start w)
    (ok : w.budgetExceeded = false) (visits : self.WithinVisits w) :
    Exact builtin walk w := by
  induction passes with
  | refl => exact exact_start builtin walk
  | @tail w w' passes last ih =>
      rcases visited_of_pass last with ⟨within, n, rest, head, visited⟩
      have consistent := consistent_of_passes builtin proper passes within
      have visits' : self.WithinVisits w := fun m => exceeds_mono (visited.counts_le m) (visits m)
      have exact := ih within visits'
      have step : (self.systemOf builtin walk).Step (Quiet builtin walk) (progress w)
          (progress w') := by
        refine visited.step proper converse consistent head ?_ id ok
        intro block found capped
        rw [← visited.counts_start found, visits n] at capped
        cases capped
      constructor
      · exact step.settling (fun facts v other quiet => quiet.2 other) exact.settling
      · exact step.covering (fun facts v quiet => quiet.1) exact.covering
      · exact step.aboveSolutions consistent.descending exact.above

/-- When the worklist is empty, the recorded states are final. -/
theorem final_of_run (builtin : self.registry = defaultRegistry) (proper : walk.Proper)
    (converse : walk.cfg.Converse) (run : self.runWorklist bound walk = some w)
    (ok : w.budgetExceeded = false) (visits : self.WithinVisits w) :
    Consistent builtin bound walk w ∧ (self.systemOf builtin walk).Final w.inStates ∧
      (self.systemOf builtin walk).AboveSolutions w.inStates := by
  rcases Loop.passes_of_run run with ⟨passes, done⟩
  have consistent := consistent_of_passes builtin proper passes ok
  have exact : Exact builtin walk w := exact_of_passes proper converse passes ok visits
  have empty : w.worklist = [] := by
    simpa [finished, ok] using done
  have nothing (v : Nat) : v ∉ (progress w).pending := by simp [progress, empty]
  refine ⟨consistent, ⟨consistent.descending, ?_, ?_⟩, exact.above⟩
  · intro v other
    exact (exact.settling v other).resolve_left (nothing v)
  · intro v
    exact (exact.covering v).resolve_left (nothing v)

end ForwardSymbolicEngine

/-! ## Walks of a function -/

namespace ForwardSymbolicEngine

/-- The walk that `resolve_at` makes from an entry block. -/
def walkFrom (engine : ForwardSymbolicEngine) (funcEa : Nat) (entry : BasicBlockInfo)
    (argIndex : Int) (reg : Nat) : Walk :=
  ⟨funcEa, buildCfg engine.port funcEa, entry, seed reg argIndex⟩

variable {self : ForwardSymbolicEngine} {bound funcEa targetEa reg : Nat} {argIndex : Int}
variable {entry target : BasicBlockInfo} {w : WalkState} {v : ValueLattice}

theorem isEmpty_of_blockContaining {cfg : CfgModel} {ea : Nat} {b : BasicBlockInfo}
    (found : cfg.blockContaining ea = some b) : cfg.isEmpty = false := by
  have nonempty := List.ne_nil_of_mem (List.mem_of_find?_eq_some found)
  simpa [CfgModel.isEmpty] using nonempty

/-- `resolve_at` runs the worklist from the entry block and reads the target's block. -/
theorem resolveAt_eq_bind
    (atEntry : (buildCfg self.port funcEa).blockContaining funcEa = some entry)
    (atTarget : (buildCfg self.port funcEa).blockContaining targetEa = some target) :
    self.resolveAt bound funcEa argIndex targetEa (some reg) =
      (self.runWorklist bound (self.walkFrom funcEa entry argIndex reg)).bind fun w =>
        self.readTarget bound (self.walkFrom funcEa entry argIndex reg) w target targetEa reg := by
  rw [resolveAt]
  dsimp only
  rw [isEmpty_of_blockContaining atEntry, if_neg Bool.false_ne_true, atEntry, atTarget]
  rfl

/-- A walk that hit the instruction limit answers nothing. -/
theorem not_exceeded_of_known
    (atEntry : (buildCfg self.port funcEa).blockContaining funcEa = some entry)
    (run : self.runWorklist bound (self.walkFrom funcEa entry argIndex reg) = some w)
    (answer : self.resolveAt bound funcEa argIndex targetEa (some reg) = some v)
    (known : v.isKnown) : w.budgetExceeded = false := by
  cases atTarget : (buildCfg self.port funcEa).blockContaining targetEa with
  | none =>
      rw [resolveAt] at answer
      dsimp only at answer
      rw [isEmpty_of_blockContaining atEntry, if_neg Bool.false_ne_true, atEntry,
        atTarget] at answer
      cases answer
      cases known
  | some target =>
      rw [resolveAt_eq_bind atEntry atTarget, run, Option.bind_some, readTarget] at answer
      by_contra capped
      rw [if_pos (by simpa using capped)] at answer
      cases answer
      cases known

end ForwardSymbolicEngine

/-! ## Walks of a consistent function -/

namespace ConsistentCfg

variable {port : IdaPort} {funcEa : Nat} (G : ConsistentCfg port funcEa)

/-- Some path from the entry enters the block. -/
def Reachable (b : BasicBlockInfo) : Prop := ∃ π, G.Path b π

open Classical in
noncomputable def reachablePreds (b : BasicBlockInfo) : List BasicBlockInfo :=
  (G.cfg.predecessors b).filter fun p => G.Reachable p

/-- The walk that `resolve_at` makes for a register. -/
def walk (argIndex : Int) (reg : Nat) : Walk := ⟨funcEa, G.cfg, G.entry, seed reg argIndex⟩

variable {G} {b c p : BasicBlockInfo}

/-- Reachable predecessors are the predecessors that paths get to. -/
theorem mem_reachablePreds : p ∈ G.reachablePreds b ↔ p ∈ G.cfg.predecessors b ∧ G.Reachable p := by
  classical
  simp [reachablePreds]

/-- The seeded state is scalar. -/
theorem scalar_seed (reg : Nat) (argIndex : Int) : (seed reg argIndex).Scalar := by
  intro l
  rw [seed, AbstractState.read_setRegister]
  split
  · exact ValueLattice.scalar_symbolic _
  · rw [AbstractState.read_empty]
    exact ValueLattice.scalar_unknown _ _

/-- The walk of a consistent graph is proper. -/
theorem proper (argIndex : Int) (reg : Nat) : (G.walk argIndex reg).Proper :=
  ⟨G.entry_mem, scalar_seed reg argIndex⟩

/-- The arrows of a consistent graph run both ways. -/
theorem converse_cfg (G : ConsistentCfg port funcEa) : G.cfg.Converse :=
  CfgModel.converse_of_starts G.converse

variable {self : ForwardSymbolicEngine} {G : ConsistentCfg self.port funcEa}
variable {builtin : self.registry = defaultRegistry} {argIndex : Int} {reg : Nat}

/-- The transfer of a block runs its instructions. -/
theorem transferOf_eq (hb : b ∈ G.cfg.blocks) :
    self.transferOf (G.walk argIndex reg) b.startEa = self.runSteps funcEa (G.tile b) := by
  have found : (G.walk argIndex reg).cfg.byStart b.startEa = some b := G.byStart_startEa hb
  have sweep := (G.tiled b hb).sweep (G.decoded b hb) (Nat.le_refl b.endEa)
  rw [G.before_endEa hb] at sweep
  rw [transferOf, found]
  dsimp only
  rw [sweep.sweepOf_eq]
  rfl

/-- The dataflow problem has the arrows of the graph. -/
theorem pred_iff (hb : b ∈ G.cfg.blocks) (hp : p ∈ G.cfg.blocks) :
    (self.systemOf builtin (G.walk argIndex reg)).pred p.startEa b.startEa ↔
      p ∈ G.cfg.predecessors b := by
  constructor
  · intro edge
    rcases edge with ⟨p', b', foundP, foundB, pred⟩
    have sameP := (G.byStart_startEa hp).symm.trans foundP
    have sameB := (G.byStart_startEa hb).symm.trans foundB
    cases sameP
    cases sameB
    exact pred
  · intro pred
    exact ⟨p, b, G.byStart_startEa hp, G.byStart_startEa hb, pred⟩

/-- Every node of the problem with a predecessor is a block of the function. -/
theorem blocks_of_pred {m n : Nat}
    (edge : (self.systemOf builtin (G.walk argIndex reg)).pred m n) :
    ∃ p b, p ∈ G.cfg.blocks ∧ b ∈ G.cfg.blocks ∧ p.startEa = m ∧ b.startEa = n ∧
      p ∈ G.cfg.predecessors b := by
  rcases edge with ⟨p, b, foundP, foundB, pred⟩
  exact ⟨p, b, CfgModel.byStart_mem foundP, CfgModel.byStart_mem foundB,
    CfgModel.byStart_startEa foundP, CfgModel.byStart_startEa foundB, pred⟩

theorem Reachable.mem_blocks (reachable : G.Reachable b) : b ∈ G.cfg.blocks := by
  rcases reachable with ⟨π, path⟩
  exact path.mem_blocks

/-- The dataflow problem reaches the blocks that paths get to. -/
theorem reachable_iff (hb : b ∈ G.cfg.blocks) :
    (self.systemOf builtin (G.walk argIndex reg)).Reachable b.startEa ↔ G.Reachable b := by
  constructor
  · intro reachable
    generalize name : b.startEa = n at reachable
    induction reachable generalizing b with
    | refl =>
        have same := G.eq_of_startEa hb G.entry_mem name
        subst same
        exact ⟨[], .entry⟩
    | tail _ edge ih =>
        rcases blocks_of_pred edge with ⟨p, c, hp, hc, rfl, same, pred⟩
        have here := G.eq_of_startEa hb hc (name.trans same.symm)
        subst here
        rcases ih hp rfl with ⟨π, path⟩
        exact ⟨_, path.step (G.mem_successors_of_predecessors hb pred)⟩
  · intro reachable
    rcases reachable with ⟨π, path⟩
    induction path with
    | entry => exact .refl
    | @step b c π path succ ih =>
        have hp := path.mem_blocks
        exact (ih hp).tail ((pred_iff hb hp).mpr (G.mem_predecessors_of_successors hp succ))

/-- The facts along the paths of the problem are those along the paths of the function. -/
theorem along_of_path {π : List Instruction} (path : G.Path b π) :
    (self.systemOf builtin (G.walk argIndex reg)).Along b.startEa
      (self.runSteps funcEa π (seed reg argIndex)) := by
  induction path with
  | entry => exact .entry
  | @step b c π path succ ih =>
      have hb := path.mem_blocks
      have hc := (G.mem_successors_iff.mp succ).1
      have next := ih.step ((pred_iff hc hb).mpr (G.mem_predecessors_of_successors hb succ))
      change System.Along _ _ (self.transferOf (G.walk argIndex reg) b.startEa _) at next
      rwa [transferOf_eq hb, ← runSteps_append] at next

/-- A value that the dataflow problem carries along is that of a run along a path. -/
theorem path_of_along {n : Nat} {x : AbstractState}
    (along : (self.systemOf builtin (G.walk argIndex reg)).Along n x) :
    ∃ b π, G.Path b π ∧ b.startEa = n ∧ x = self.runSteps funcEa π (seed reg argIndex) := by
  induction along with
  | entry => exact ⟨G.entry, [], .entry, rfl, rfl⟩
  | @step m n x _ edge ih =>
      rcases ih with ⟨b, π, path, here, rfl⟩
      rcases blocks_of_pred edge with ⟨p, c, hp, hc, same, rfl, pred⟩
      have known := G.eq_of_startEa hp path.mem_blocks (same.trans here.symm)
      subst known
      refine ⟨c, _, path.step (G.mem_successors_of_predecessors hc pred), rfl, ?_⟩
      rw [runSteps_append]
      change self.transferOf (G.walk argIndex reg) m _ = _
      rw [← here, transferOf_eq hp]

/-! ## Answers -/

/-- The function's start lies in the entry block. -/
theorem blockContaining_entry (G : ConsistentCfg port funcEa) :
    (buildCfg port funcEa).blockContaining funcEa = some G.entry := by
  apply G.blockContaining_eq G.entry_mem
  · exact G.entry_startEa.le
  · have positive := G.nonempty G.entry G.entry_mem
    have start := G.entry_startEa
    omega

/-- Inside a block, the answer is read from the block after the worklist. -/
theorem resolveAt_eq {bound targetEa : Nat} (hb : b ∈ G.cfg.blocks) (lo : b.startEa ≤ targetEa)
    (hi : targetEa < b.endEa) :
    self.resolveAt bound funcEa argIndex targetEa (some reg) =
      (self.runWorklist bound (G.walk argIndex reg)).bind fun w =>
        self.readTarget bound (G.walk argIndex reg) w b targetEa reg :=
  resolveAt_eq_bind G.blockContaining_entry (G.blockContaining_eq hb lo hi)

/-- The answer read from a recorded state. -/
theorem readTarget_recorded {bound targetEa : Nat} {w : WalkState}
    (consistent : Consistent builtin bound (G.walk argIndex reg) w) (ok : w.budgetExceeded = false)
    (hb : b ∈ G.cfg.blocks) (hi : targetEa < b.endEa) {s : AbstractState}
    (recorded : w.inStates b.startEa = some s) :
    self.readTarget bound (G.walk argIndex reg) w b targetEa reg =
      some ((self.runSteps funcEa (before (G.tile b) targetEa) s).getRegister (some reg)) := by
  have stop : min b.endEa targetEa = targetEa := by omega
  rcases consistent.simulated b.startEa s b recorded (G.byStart_startEa hb) with
    ⟨used, out, used', whole⟩
  rcases exists_simulate_of_le hi.le whole 0 s with ⟨result, simulated⟩
  -- the instructions of the whole block fit the limit, so those before the target do
  have sweep := (G.tiled b hb).sweep (G.decoded b hb) hi.le
  have sweepAll := (G.tiled b hb).sweep (G.decoded b hb) (Nat.le_refl b.endEa)
  rw [G.before_endEa hb] at sweepAll
  rcases simulate_used sweepAll whole with ⟨count, fits⟩
  have nonempty := (G.tiled b hb).ne_nil (G.nonempty b hb)
  have shorter : (before (G.tile b) targetEa).length ≤ (G.tile b).length :=
    ((G.tiled b hb).before_extends targetEa).length_le
  have within : exceeds self.maxInstructions (0 + (before (G.tile b) targetEa).length) = false :=
    exceeds_mono (by omega) (fits nonempty)
  have value := simulate_of_fits sweep within simulated
  subst value
  rw [readTarget, ok, if_neg Bool.false_ne_true, recorded]
  dsimp only
  rw [simulateBlock]
  rw [stop]
  exact congrArg (Option.bind · _) simulated

/-- Where no state was recorded, nothing is known. -/
theorem readTarget_unrecorded {bound targetEa : Nat} {w : WalkState} (ok : w.budgetExceeded = false)
    (missing : w.inStates b.startEa = none) :
    ∃ v, self.readTarget bound (G.walk argIndex reg) w b targetEa reg = some v ∧
      v.isKnown = false := by
  rw [readTarget, ok, if_neg Bool.false_ne_true, missing]
  exact ⟨_, rfl, rfl⟩

/-! ## The greatest solution -/

/-- The equations of the dataflow problem, up to the reason and detail of `unknown`. -/
structure Solves (engine : ForwardSymbolicEngine) {funcEa : Nat}
    (G : ConsistentCfg engine.port funcEa) (initial : AbstractState)
    (X : BasicBlockInfo → AbstractState) : Prop where
  entry : (X G.entry).Alike initial
  join : ∀ b, G.Reachable b → b ≠ G.entry → (X b).Alike (.joinStates
    ((G.reachablePreds b).map fun p => engine.runSteps funcEa (G.tile p) (X p)))

/-- A solution that knows at least what every other solution knows. -/
structure Greatest (engine : ForwardSymbolicEngine) {funcEa : Nat}
    (G : ConsistentCfg engine.port funcEa) (initial : AbstractState)
    (X : BasicBlockInfo → AbstractState) : Prop where
  solves : Solves engine G initial X
  greatest : ∀ Y, Solves engine G initial Y → ∀ b, G.Reachable b → Y b ≤ X b

/-- A reachable block other than the entry has a reachable predecessor. -/
theorem reachablePreds_ne_nil (reachable : G.Reachable b) (other : b ≠ G.entry) :
    G.reachablePreds b ≠ [] := by
  rcases reachable with ⟨π, path⟩
  cases path with
  | entry => exact (other rfl).elim
  | @step p _ π path succ =>
      have pred := G.mem_predecessors_of_successors path.mem_blocks succ
      exact List.ne_nil_of_mem (mem_reachablePreds.mpr ⟨pred, π, path⟩)

/-- What the reachable predecessors of a block pass on to it, in both descriptions. -/
theorem passed_iff (hb : b ∈ G.cfg.blocks) (X : BasicBlockInfo → AbstractState)
    (X' : Nat → AbstractState) (agrees : ∀ p ∈ G.cfg.blocks, X' p.startEa = X p)
    (y : AbstractState) :
    y ∈ (G.reachablePreds b).map (fun p => self.runSteps funcEa (G.tile p) (X p)) ↔
      ∃ m, (self.systemOf builtin (G.walk argIndex reg)).pred m b.startEa ∧
        (self.systemOf builtin (G.walk argIndex reg)).Reachable m ∧
        self.transferOf (G.walk argIndex reg) m (X' m) = y := by
  constructor
  · intro listed
    rcases List.mem_map.mp listed with ⟨p, member, rfl⟩
    rcases mem_reachablePreds.mp member with ⟨pred, reachable⟩
    have hp := reachable.mem_blocks
    refine ⟨p.startEa, (pred_iff hb hp).mpr pred, (reachable_iff hp).mpr reachable, ?_⟩
    rw [transferOf_eq hp, agrees p hp]
  · intro passed
    rcases passed with ⟨m, edge, reachable, rfl⟩
    rcases blocks_of_pred edge with ⟨p, c, hp, hc, rfl, same, pred⟩
    have here := G.eq_of_startEa hc hb same
    subst here
    refine List.mem_map.mpr ⟨p, mem_reachablePreds.mpr ⟨pred, (reachable_iff hp).mp reachable⟩, ?_⟩
    rw [transferOf_eq hp, agrees p hp]

/-- A function on blocks, by start addresses. -/
def byAddress (G : ConsistentCfg self.port funcEa) (X : BasicBlockInfo → AbstractState) (n : Nat) :
    AbstractState :=
  match G.cfg.byStart n with
  | none => .empty
  | some b => X b

/-- The state of a block is the one under its start address. -/
theorem byAddress_startEa (X : BasicBlockInfo → AbstractState) (p : BasicBlockInfo)
    (hp : p ∈ G.cfg.blocks) : byAddress G X p.startEa = X p := by
  rw [byAddress, G.byStart_startEa hp]

/-- A solution over the blocks is one over the addresses. -/
theorem Solves.isSolution (builtin : self.registry = defaultRegistry)
    {X : BasicBlockInfo → AbstractState} (solves : Solves self G (seed reg argIndex) X) :
    (self.systemOf builtin (G.walk argIndex reg)).IsSolution (byAddress G X) := by
  have entry : byAddress G X G.entry.startEa = X G.entry := byAddress_startEa X G.entry G.entry_mem
  constructor
  · exact entry ▸ solves.entry.le
  · exact entry ▸ solves.entry.symm.le
  · intro n other reachable
    -- a reachable node is a block
    have block : ∃ b ∈ G.cfg.blocks, b.startEa = n := by
      rcases Relation.ReflTransGen.cases_tail reachable with same | ⟨m, _, edge⟩
      · exact (other same).elim
      · rcases blocks_of_pred edge with ⟨_, b, _, hb, _, here, _⟩
        exact ⟨b, hb, here⟩
    rcases block with ⟨b, hb, rfl⟩
    have reached := (reachable_iff hb).mp reachable
    have notEntry : b ≠ G.entry := by
      intro same
      exact other (by rw [same]; rfl)
    have alike := solves.join b reached notEntry
    have some' : (G.reachablePreds b).map
        (fun p => self.runSteps funcEa (G.tile p) (X p)) ≠ [] := by
      simpa using reachablePreds_ne_nil reached notEntry
    have glb := AbstractState.isGLB_joinStates some'
    have set : {y | ∃ m, (self.systemOf builtin (G.walk argIndex reg)).pred m b.startEa ∧
        (self.systemOf builtin (G.walk argIndex reg)).Reachable m ∧
        self.transferOf (G.walk argIndex reg) m (byAddress G X m) = y} =
        {y | y ∈ (G.reachablePreds b).map fun p => self.runSteps funcEa (G.tile p) (X p)} := by
      ext y
      exact (passed_iff hb X (byAddress G X) (byAddress_startEa X) y).symm
    change IsGLB {y | ∃ m, _ ∧ _ ∧ self.transferOf (G.walk argIndex reg) m _ = y} _
    rw [set, byAddress_startEa X b hb]
    constructor
    · intro z member
      exact alike.le.trans (glb.1 member)
    · intro z lower
      exact (glb.2 lower).trans alike.symm.le

/-- The recorded states, by blocks. -/
def recorded (w : WalkState) (b : BasicBlockInfo) : AbstractState :=
  (w.inStates b.startEa).getD .empty

section Final

variable {w : WalkState}
variable (final : (self.systemOf builtin (G.walk argIndex reg)).Final w.inStates)
include final

/-- Every reachable block has a recorded state. -/
theorem inStates_eq (reachable : G.Reachable b) : w.inStates b.startEa = some (recorded w b) := by
  have visited := final.isSome ((reachable_iff reachable.mem_blocks).mpr reachable)
  rcases Option.isSome_iff_exists.mp visited with ⟨s, known⟩
  rw [recorded, known]
  rfl

variable (consistent : Consistent builtin bound (G.walk argIndex reg) w)
include consistent

theorem recorded_scalar (reachable : G.Reachable b) : (recorded w b).Scalar :=
  consistent.scalar b.startEa _ (inStates_eq final reachable)

/-- The recorded states solve the equations. -/
theorem recorded_solves : Solves self G (seed reg argIndex) (recorded w) := by
  have solution := final.isSolution (X := fun n => (w.inStates n).getD .empty)
    fun v x known => by rw [known]; rfl
  have entered : G.Reachable G.entry := ⟨[], .entry⟩
  constructor
  · exact (recorded_scalar final consistent entered).alike solution.entry_le solution.le_entry
  · intro b reachable other
    have hb := reachable.mem_blocks
    have notEntry : b.startEa ≠ G.entry.startEa :=
      fun same => other (G.eq_of_startEa hb G.entry_mem same)
    have some' : (G.reachablePreds b).map
        (fun p => self.runSteps funcEa (G.tile p) (recorded w p)) ≠ [] := by
      simpa using reachablePreds_ne_nil reachable other
    have glb := AbstractState.isGLB_joinStates some'
    have here := solution.glb b.startEa notEntry ((reachable_iff hb).mpr reachable)
    have set : {y | y ∈ (G.reachablePreds b).map
        fun p => self.runSteps funcEa (G.tile p) (recorded w p)} =
        {y | ∃ m, (self.systemOf builtin (G.walk argIndex reg)).pred m b.startEa ∧
          (self.systemOf builtin (G.walk argIndex reg)).Reachable m ∧
          self.transferOf (G.walk argIndex reg) m ((w.inStates m).getD .empty) = y} := by
      ext y
      exact passed_iff hb (recorded w) (fun n => (w.inStates n).getD .empty) (fun _ _ => rfl) y
    rw [set] at glb
    exact (recorded_scalar final consistent reachable).alike (glb.2 here.1) (here.2 glb.1)

/-- They are the greatest solution. -/
theorem recorded_greatest
    (above : (self.systemOf builtin (G.walk argIndex reg)).AboveSolutions w.inStates) :
    Greatest self G (seed reg argIndex) (recorded w) := by
  refine ⟨recorded_solves final consistent, ?_⟩
  intro Y solves b reachable
  have below := above (byAddress G Y) (solves.isSolution builtin) b.startEa _
    (inStates_eq final reachable)
  rwa [byAddress_startEa Y b reachable.mem_blocks] at below

/-- The recorded states are what any greatest solution says. -/
theorem recorded_alike
    (above : (self.systemOf builtin (G.walk argIndex reg)).AboveSolutions w.inStates)
    {X : BasicBlockInfo → AbstractState} (greatest : Greatest self G (seed reg argIndex) X)
    (reachable : G.Reachable b) : (recorded w b).Alike (X b) := by
  have solves := recorded_solves final consistent
  have other := recorded_greatest final consistent above
  exact (recorded_scalar final consistent reachable).alike
    (greatest.greatest _ solves b reachable) (other.greatest _ greatest.solves b reachable)

end Final

/-- Running instructions keeps states alike. -/
theorem alike_runSteps (builtin : self.registry = defaultRegistry) (is : List Instruction)
    {s t : AbstractState} (scalar : s.Scalar) (alike : s.Alike t) :
    (self.runSteps funcEa is s).Alike (self.runSteps funcEa is t) := by
  have tame := runSteps_tame builtin funcEa is
  exact (tame.scalar s scalar).alike (tame.mono s t alike.le) (tame.mono t s alike.symm.le)

/-- The answer for a target is read from the recorded states; for a target that no path
reaches it is unknown. -/
theorem answer_cases {bound targetEa : Nat} {w : WalkState}
    (run : self.runWorklist bound (G.walk argIndex reg) = some w) (ok : w.budgetExceeded = false)
    (consistent : Consistent builtin bound (G.walk argIndex reg) w)
    (final : (self.systemOf builtin (G.walk argIndex reg)).Final w.inStates)
    (hb : b ∈ G.cfg.blocks) (lo : b.startEa ≤ targetEa) (hi : targetEa < b.endEa) :
    ∃ v, self.resolveAt bound funcEa argIndex targetEa (some reg) = some v ∧
      (G.Reachable b ∧ v = (self.runSteps funcEa (before (G.tile b) targetEa)
        (recorded w b)).getRegister (some reg) ∨ ¬ G.Reachable b ∧ v.isKnown = false) := by
  rw [resolveAt_eq hb lo hi, run, Option.bind_some]
  by_cases reachable : G.Reachable b
  · exact ⟨_, readTarget_recorded consistent ok hb hi (inStates_eq final reachable),
      Or.inl ⟨reachable, rfl⟩⟩
  · cases known : w.inStates b.startEa with
    | none =>
        rcases readTarget_unrecorded ok known with ⟨v, answer, unknown⟩
        exact ⟨v, answer, Or.inr ⟨reachable, unknown⟩⟩
    | some s =>
        have reached := consistent.descending.reachable b.startEa s known
        exact (reachable ((reachable_iff hb).mp reached)).elim

/-- An answer holds along every path to the target, if the paths that come back to the
entry leave the seed in force. -/
theorem answer_sound {bound targetEa : Nat} {w : WalkState}
    (consistent : Consistent builtin bound (G.walk argIndex reg) w)
    (final : (self.systemOf builtin (G.walk argIndex reg)).Final w.inStates)
    (back : ∀ π, G.Path G.entry π →
      seed reg argIndex ≤ self.runSteps funcEa π (seed reg argIndex))
    (hb : b ∈ G.cfg.blocks) (lo : b.startEa ≤ targetEa) (hi : targetEa < b.endEa)
    (reachable : G.Reachable b) (known : ((self.runSteps funcEa (before (G.tile b) targetEa)
      (recorded w b)).getRegister (some reg)).isKnown)
    {π : List Instruction} (path : G.PathTo targetEa π) :
    (self.runSteps funcEa π (seed reg argIndex)).getRegister (some reg) =
      (self.runSteps funcEa (before (G.tile b) targetEa) (recorded w b)).getRegister
        (some reg) := by
  cases path with
  | @intro c π path lo' hi' =>
      have same : c = b := by
        have left := G.blockContaining_eq path.mem_blocks lo' hi'
        have right := G.blockContaining_eq hb lo hi
        exact Option.some.inj (left.symm.trans right)
      subst same
      have seeded : ∀ x, (self.systemOf builtin (G.walk argIndex reg)).Along G.entry.startEa x →
          seed reg argIndex ≤ x := by
        intro x along
        rcases path_of_along along with ⟨d, π, entered, here, rfl⟩
        have entry := G.eq_of_startEa entered.mem_blocks G.entry_mem here
        subst entry
        exact back π entered
      rcases final.sound seeded (along_of_path path) with ⟨y, found, below⟩
      rw [inStates_eq final reachable] at found
      cases found
      have tame := runSteps_tame builtin funcEa (before (G.tile c) targetEa)
      have le := tame.mono _ _ below
      rw [runSteps_append]
      exact (tame.scalar _ (recorded_scalar final consistent reachable) (.reg (some reg))).eq_of_le
        known (le (.reg (some reg)))

/-- What is answered for a target is what any greatest solution says there. -/
theorem answer_greatest (self : ForwardSymbolicEngine) (builtin : self.registry = defaultRegistry)
    (G : ConsistentCfg self.port funcEa) {bound targetEa : Nat} {w : WalkState}
    (run : self.runWorklist bound (G.walk argIndex reg) = some w) (ok : w.budgetExceeded = false)
    (visits : self.WithinVisits w) (hb : b ∈ G.cfg.blocks) (lo : b.startEa ≤ targetEa)
    (hi : targetEa < b.endEa) :
    ∃ v, self.resolveAt bound funcEa argIndex targetEa (some reg) = some v ∧
      (¬ G.Reachable b → v.isKnown = false) ∧
      ∀ X, Greatest self G (seed reg argIndex) X → G.Reachable b →
        v.Alike ((self.runSteps funcEa (before (G.tile b) targetEa) (X b)).getRegister
          (some reg)) := by
  rcases final_of_run builtin (proper argIndex reg) G.converse_cfg run ok visits with
    ⟨consistent, final, above⟩
  rcases answer_cases run ok consistent final hb lo hi with ⟨v, answer, value⟩
  refine ⟨v, answer, ?_, ?_⟩
  · intro unreachable
    rcases value with ⟨reachable, _⟩ | ⟨_, unknown⟩
    · exact (unreachable reachable).elim
    · exact unknown
  · intro X greatest reachable
    rcases value with ⟨_, rfl⟩ | ⟨unreachable, _⟩
    · exact alike_runSteps builtin _ (recorded_scalar final consistent reachable)
        (recorded_alike final consistent above greatest reachable) (.reg (some reg))
    · exact (unreachable reachable).elim

/-! ## Widening -/

/-- The engine with another `loop_widen_after`. -/
def widenAfter (self : ForwardSymbolicEngine) (visits : Nat) : ForwardSymbolicEngine :=
  { self with loopWidenAfter := visits }

/-- The equations do not mention widening. -/
theorem Solves.widenAfter {initial : AbstractState} {X : BasicBlockInfo → AbstractState}
    (solves : Solves self G initial X) (visits : Nat) :
    Solves (widenAfter self visits) G initial X :=
  ⟨solves.entry, solves.join⟩

/-- The widening threshold has no part in being the greatest solution. -/
theorem Greatest.widenAfter {initial : AbstractState} {X : BasicBlockInfo → AbstractState}
    (greatest : Greatest self G initial X) (visits : Nat) :
    Greatest (widenAfter self visits) G initial X :=
  ⟨greatest.solves.widenAfter visits,
    fun Y solves => greatest.greatest Y ⟨solves.entry, solves.join⟩⟩

/-! ## A function whose entry nothing leads back to -/

/-- The only path that enters an entry block without predecessors is the empty one. -/
theorem path_entry (source : G.cfg.predecessors G.entry = []) {π : List Instruction}
    (path : G.Path G.entry π) : π = [] := by
  generalize target : G.entry = e at path
  cases path with
  | entry => rfl
  | @step b _ π path succ =>
      have pred := G.mem_predecessors_of_successors path.mem_blocks succ
      rw [← target, source] at pred
      cases pred

end ConsistentCfg

/-! ## The claim about whole walks -/

open ConsistentCfg

/-- When no limit cuts the walk short, the recorded in-states are the greatest solution of
the dataflow equations, and the answer for any target is what that solution says there. It
is the same, up to the reason and detail of `unknown`, wherever widening sets in; if it is
known, it is the value along every path to the target. -/
theorem forward_exact (self : ForwardSymbolicEngine) (builtin : self.registry = defaultRegistry)
    {funcEa : Nat} (G : ConsistentCfg self.port funcEa)
    (source : G.cfg.predecessors G.entry = []) (argIndex : Int) (reg : Nat) {bound : Nat}
    {w : WalkState} (run : self.runWorklist bound (G.walk argIndex reg) = some w)
    (ok : w.budgetExceeded = false) (visits : self.WithinVisits w) :
    (∃ X, Greatest self G (seed reg argIndex) X) ∧
    (∀ X, Greatest self G (seed reg argIndex) X → ∀ b, G.Reachable b →
      ∃ s, w.inStates b.startEa = some s ∧ s.Alike (X b)) ∧
    ∀ b ∈ G.cfg.blocks, ∀ targetEa, b.startEa ≤ targetEa → targetEa < b.endEa →
      ∃ v, self.resolveAt bound funcEa argIndex targetEa (some reg) = some v ∧
        (∀ X, Greatest self G (seed reg argIndex) X → G.Reachable b →
          v.Alike ((self.runSteps funcEa (before (G.tile b) targetEa) (X b)).getRegister
            (some reg))) ∧
        (∀ n bound' w', (widenAfter self n).runWorklist bound' (G.walk argIndex reg) = some w' →
          w'.budgetExceeded = false → (widenAfter self n).WithinVisits w' →
          ∃ v', (widenAfter self n).resolveAt bound' funcEa argIndex targetEa (some reg) =
            some v' ∧ v.Alike v') ∧
        (v.isKnown → G.Reachable b ∧ ∀ π, G.PathTo targetEa π →
          (self.runSteps funcEa π (seed reg argIndex)).getRegister (some reg) = v) := by
  rcases final_of_run builtin (proper argIndex reg) G.converse_cfg run ok visits with
    ⟨consistent, final, above⟩
  have greatest := recorded_greatest final consistent above
  refine ⟨⟨recorded w, greatest⟩, ?_, ?_⟩
  · intro X other b reachable
    exact ⟨recorded w b, inStates_eq final reachable,
      recorded_alike final consistent above other reachable⟩
  · intro b hb targetEa lo hi
    rcases answer_greatest self builtin G run ok visits hb lo hi with ⟨v, answer, none, value⟩
    refine ⟨v, answer, value, ?_, ?_⟩
    · intro n bound' w' run' ok' visits'
      rcases answer_greatest (widenAfter self n) builtin G run' ok' visits' hb lo hi with
        ⟨v', answer', none', value'⟩
      refine ⟨v', answer', ?_⟩
      by_cases reachable : G.Reachable b
      · have left := value (recorded w) greatest reachable
        have right := value' (recorded w) (greatest.widenAfter n) reachable
        exact left.trans right.symm
      · exact Or.inr ⟨none reachable, none' reachable⟩
    · intro known
      rcases answer_cases run ok consistent final hb lo hi with ⟨u, again, cases'⟩
      have same := Option.some.inj (answer.symm.trans again)
      subst same
      rcases cases' with ⟨reachable, rfl⟩ | ⟨_, unknown⟩
      · refine ⟨reachable, ?_⟩
        intro π path
        refine answer_sound consistent final ?_ hb lo hi reachable known path
        intro π entered
        rw [path_entry source entered]
        exact le_refl _
      · rw [unknown] at known
        cases known

namespace CountedLoop

/-- The engine with its default limits. -/
def engine : ForwardSymbolicEngine := ⟨port, defaultRegistry, some 4000, some 64, 3⟩

theorem walks : ∃ w, engine.runWorklist 64 (graph.walk 0 1) = some w ∧ w.budgetExceeded = false ∧
    engine.WithinVisits w := by
  have run : (engine.runWorklist 64 (graph.walk 0 1)).any (fun w => w.budgetExceeded = false ∧
      ∀ b ∈ graph.cfg.blocks, exceeds engine.maxBlockVisits (w.visitCounts b.startEa) = false) := by
    decide
  rcases (Option.any_eq_true _ _).mp run with ⟨w, returned, fits⟩
  simp only [decide_eq_true_eq] at fits
  exact ⟨w, returned, fits.1, withinVisits_of_run returned fits.2⟩

end CountedLoop

/-- `ecx` still holds the argument after a trip round a loop that does not write it. -/
theorem forward_exact_countedLoop :
    (CountedLoop.engine.runSteps 0x401000 [CountedLoop.setEsi, CountedLoop.back]
      (seed 1 0)).getRegister (some 1) = .symbolic "arg0" := by
  rcases CountedLoop.walks with ⟨w, run, ok, visits⟩
  have exact' := forward_exact CountedLoop.engine rfl CountedLoop.graph (by decide) 0 1
    run ok visits
  rcases exact'.2.2 ⟨0x401005, 0x401007, [0x401005], [0x401000, 0x401005]⟩ (by decide) 0x401005
    (by decide) (by decide) with ⟨v, answer, _, _, along⟩
  have value : CountedLoop.engine.resolveAt 64 0x401000 0 0x401005 (some 1) =
      some (.symbolic "arg0") := by decide
  have same := Option.some.inj (answer.symm.trans value)
  subst same
  exact (along rfl).2 _ CountedLoop.once

end IDAnalysister
