import Mathlib.Algebra.BigOperators.Group.Finset.Basic
import Mathlib.Algebra.Order.BigOperators.Group.Finset
import Mathlib.Algebra.Ring.Nat
import IDAnalysister.Forward.Exactness

/-!
# Widening makes the worklist terminate

After `loop_widen_after` visits a location of a recorded state can only be added once
and then be pinned once. The rounds that a block has left before that, and the heights
of its locations after it, bound how often its state can still change, whatever the
graph and whatever the reasons of the unknown values.
-/

namespace IDAnalysister

open Dataflow ForwardSymbolicEngine AbstractState

/-! ## How often widening can change a location -/

namespace AbstractState

variable {s t : AbstractState} {l : Location} {L : Finset Location}

/-- How often widening can still change a location: it can be added and it can be pinned. -/
def height (s : AbstractState) (l : Location) : Nat :=
  if s.Tracks l then
    if s.read l = .unknown' .loopNonConvergent then 0 else 1
  else 2

theorem height_le_two (s : AbstractState) (l : Location) : s.height l ≤ 2 := by
  unfold height
  split
  · split <;> omega
  · omega

theorem sum_height_le (s : AbstractState) (L : Finset Location) :
    ∑ l ∈ L, s.height l ≤ 2 * L.card := by
  rw [mul_comm]
  exact Finset.sum_le_card_nsmul L _ 2 fun l _ => height_le_two s l

/-- What widening does to one location. -/
theorem height_widen (s t : AbstractState) (l : Location) :
    (s.widen t).height l < s.height l ∨
      (s.widen t).height l = s.height l ∧ (s.widen t).read l = s.read l ∧
        ((s.widen t).Tracks l ↔ s.Tracks l) := by
  by_cases tracked : s.Tracks l
  · have tracked' : (s.widen t).Tracks l := tracks_widen.mpr (Or.inl tracked)
    by_cases same : s.read l = t.read l
    · right
      have value : (s.widen t).read l = s.read l := by rw [read_widen, pin, if_pos same]
      simp [height, tracked, tracked', value]
    · have pinned : (s.widen t).read l = .unknown' .loopNonConvergent := by
        rw [read_widen, pin, if_neg same]
      by_cases already : s.read l = .unknown' .loopNonConvergent
      · right
        simp [height, tracked, tracked', pinned, already]
      · left
        simp [height, tracked, tracked', pinned, already]
  · by_cases added : t.Tracks l
    · left
      have tracked' : (s.widen t).Tracks l := tracks_widen.mpr (Or.inr added)
      have one : (s.widen t).height l ≤ 1 := by
        rw [height, if_pos tracked']
        split <;> omega
      have two : s.height l = 2 := by rw [height, if_neg tracked]
      omega
    · right
      have untracked : ¬ (s.widen t).Tracks l := by
        rw [tracks_widen]
        exact not_or.mpr ⟨tracked, added⟩
      rw [read_of_not_tracks tracked, read_of_not_tracks untracked]
      simp [height, tracked, untracked]

/-- Widening that changes a state lowers the height of one of its locations. -/
theorem sum_height_widen_lt (inside : ∀ l, (s.widen t).Tracks l → l ∈ L)
    (differs : s.widen t ≠ s) : ∑ l ∈ L, (s.widen t).height l < ∑ l ∈ L, s.height l := by
  have lower : ∃ l ∈ L, (s.widen t).height l < s.height l := by
    by_contra none
    push Not at none
    apply differs
    have kept (l : Location) : (s.widen t).read l = s.read l ∧
        ((s.widen t).Tracks l ↔ s.Tracks l) := by
      by_cases member : l ∈ L
      · have level := none l member
        rcases height_widen s t l with less | ⟨_, same⟩
        · omega
        · exact same
      · have untracked : ¬ (s.widen t).Tracks l := fun tracks => member (inside l tracks)
        have before : ¬ s.Tracks l := fun tracks => untracked (tracks_widen.mpr (Or.inl tracks))
        rw [read_of_not_tracks untracked, read_of_not_tracks before]
        exact ⟨rfl, iff_of_false untracked before⟩
    exact ext_of_read (fun l => (kept l).2) fun l => (kept l).1
  rcases lower with ⟨l, member, less⟩
  apply Finset.sum_lt_sum
  · intro k _
    rcases height_widen s t k with less | ⟨same, _⟩
    · omega
    · omega
  · exact ⟨l, member, less⟩

end AbstractState

namespace ForwardSymbolicEngine

/-! ## What is left of a block -/

/-- How often the recorded state of a block can still change. -/
def remaining (engine : ForwardSymbolicEngine) (L : Finset Location)
    (state : Option AbstractState) (visits : Nat) : Nat :=
  match state with
  | none => engine.loopWidenAfter + 1 + 2 * L.card
  | some s =>
      if visits ≤ engine.loopWidenAfter then engine.loopWidenAfter - visits + 2 * L.card
      else ∑ l ∈ L, s.height l

variable {self : ForwardSymbolicEngine} {L : Finset Location}

theorem remaining_succ_le (state : Option AbstractState) (visits : Nat) :
    self.remaining L state (visits + 1) ≤ self.remaining L state visits := by
  cases state with
  | none => exact Nat.le_refl _
  | some s =>
      have bound := sum_height_le s L
      unfold remaining
      dsimp only
      split
      · rw [if_pos (by omega)]
        omega
      · split
        · omega
        · exact Nat.le_refl _

/-- A visit that computes a new state for a block uses up one of its changes. -/
theorem remaining_computedIn_lt (prev : Option AbstractState) (joined : AbstractState)
    (visits : Nat) (inside : ∀ l, (self.computedIn prev joined (visits + 1)).Tracks l → l ∈ L)
    (differs : prev ≠ some (self.computedIn prev joined (visits + 1))) :
    self.remaining L (some (self.computedIn prev joined (visits + 1))) (visits + 1) <
      self.remaining L prev visits := by
  cases prev with
  | none =>
      have bound := sum_height_le joined L
      unfold remaining computedIn
      dsimp only
      split
      · omega
      · omega
  | some prev =>
      by_cases widened : self.loopWidenAfter < visits + 1
      · have value : self.computedIn (some prev) joined (visits + 1) = prev.widen joined := by
          rw [computedIn]
          exact if_pos widened
        rw [value] at inside differs ⊢
        have changed : prev.widen joined ≠ prev := fun same => differs (by rw [same])
        have lower := sum_height_widen_lt inside changed
        have bound := sum_height_le prev L
        unfold remaining
        dsimp only
        rw [if_neg (by omega)]
        split
        · omega
        · exact lower
      · unfold remaining
        dsimp only
        rw [if_pos (by omega), if_pos (by omega)]
        omega

/-! ## What a walk can track -/

/-- Everything that a walk can track lies in `L`. -/
structure Encloses (engine : ForwardSymbolicEngine) (walk : Walk) (L : Finset Location) : Prop where
  initial : ∀ l, walk.initial.Tracks l → l ∈ L
  blocks : ∀ n b is, walk.cfg.byStart n = some b → Sweep engine.port b.endEa b.startEa is →
    ∀ i ∈ is, ∀ l, engine.Occurs walk.funcEa i l → l ∈ L

/-- The states of a walk track nothing outside `L`. -/
structure Inside (L : Finset Location) (w : WalkState) : Prop where
  ins : ∀ n s, w.inStates n = some s → ∀ l, s.Tracks l → l ∈ L
  outs : ∀ n s, w.outStates n = some s → ∀ l, s.Tracks l → l ∈ L

variable {bound start : Nat} {walk : Walk} {w w' : WalkState} {rest : List Nat}
variable {block : BasicBlockInfo} {joined : AbstractState}

theorem tracks_joined (encloses : self.Encloses walk L) (inside : Inside L w)
    (available : joinPredecessorStates walk block w.outStates = some joined) (l : Location)
    (tracks : joined.Tracks l) : l ∈ L := by
  unfold joinPredecessorStates at available
  split at available
  · cases available
    exact encloses.initial l tracks
  · dsimp only at available
    split at available
    · cases available
    · cases available
      rcases tracks_joinStates.mp tracks with ⟨s, member, tracks⟩
      rcases List.mem_filterMap.mp member with ⟨p, _, out⟩
      exact inside.outs p.startEa s out l tracks

theorem tracks_computedIn (encloses : self.Encloses walk L) (inside : Inside L w)
    (available : joinPredecessorStates walk block w.outStates = some joined) {visits : Nat}
    (l : Location) (tracks : (self.computedIn (w.inStates start) joined visits).Tracks l) :
    l ∈ L := by
  unfold computedIn at tracks
  split at tracks
  · exact tracks_joined encloses inside available l tracks
  · rename_i prev recorded
    split at tracks
    · rcases tracks_widen.mp tracks with before | new
      · exact inside.ins start prev recorded l before
      · exact tracks_joined encloses inside available l new
    · exact tracks_joined encloses inside available l tracks

theorem Visited.inside (builtin : self.registry = defaultRegistry)
    (encloses : self.Encloses walk L) (inside : Inside L w)
    (visited : self.Visited bound walk w start rest w') (ok : w'.budgetExceeded = false) :
    Inside L w' := by
  cases visited with
  | noBlock => exact ⟨inside.ins, inside.outs⟩
  | refused => exact ⟨inside.ins, inside.outs⟩
  | unavailable => exact ⟨inside.ins, inside.outs⟩
  | unchanged => exact ⟨inside.ins, inside.outs⟩
  | @updated block joined computed out used exceeded found _ available value _ simulated =>
      have within : exceeded = false := ok
      subst within value
      constructor
      · intro n s known l tracks
        rcases System.of_update_eq_some known with ⟨_, rfl⟩ | ⟨_, known⟩
        · exact tracks_computedIn encloses inside available l tracks
        · exact inside.ins n s known l tracks
      · intro n s known l tracks
        rcases System.of_update_eq_some known with ⟨rfl, rfl⟩ | ⟨_, known⟩
        · rcases simulate_eq_runSteps simulated with ⟨is, sweep, rfl⟩
          rcases (runSteps_tame builtin walk.funcEa is).tracks _ l tracks with before | new
          · exact tracks_computedIn encloses inside available l before
          · rcases new with ⟨i, member, occurs⟩
            exact encloses.blocks n block is found sweep i member l occurs
        · exact inside.outs n s known l tracks

/-! ## A pass uses up changes -/

/-- No pass gives a block changes back, and one that changes its state uses one up. -/
theorem Visited.remaining (encloses : self.Encloses walk L) (inside : Inside L w)
    (visited : self.Visited bound walk w start rest w') (n : Nat) :
    self.remaining L (w'.inStates n) (w'.visitCounts n) ≤
        self.remaining L (w.inStates n) (w.visitCounts n) ∧
      (w'.inStates n ≠ w.inStates n → self.remaining L (w'.inStates n) (w'.visitCounts n) <
        self.remaining L (w.inStates n) (w.visitCounts n)) := by
  have kept (same : w'.inStates n = w.inStates n) :
      self.remaining L (w'.inStates n) (w'.visitCounts n) ≤
        self.remaining L (w.inStates n) (w.visitCounts n) := by
    rw [same, visited.counts]
    split
    · exact remaining_succ_le _ _
    · exact Nat.le_refl _
  by_cases same : w'.inStates n = w.inStates n
  · exact ⟨kept same, fun differs => (differs same).elim⟩
  · have less : self.remaining L (w'.inStates n) (w'.visitCounts n) <
        self.remaining L (w.inStates n) (w.visitCounts n) := by
      cases visited with
      | noBlock => exact (same rfl).elim
      | refused => exact (same rfl).elim
      | unavailable => exact (same rfl).elim
      | unchanged => exact (same rfl).elim
      | @updated block joined computed out used exceeded found _ available value differs _ =>
          subst value
          have here : n = start := by
            by_contra other
            exact same (Function.update_of_ne other ..)
          subst here
          dsimp only [WalkState.counted]
          rw [Function.update_self, Function.update_self]
          exact remaining_computedIn_lt _ _ _ (tracks_computedIn encloses inside available) differs
    exact ⟨less.le, fun _ => less⟩

/-! ## Termination -/

/-- The start addresses of the blocks. -/
def starts (walk : Walk) : Finset Nat := (walk.cfg.blocks.map (·.startEa)).toFinset

/-- At least the number of successors that any block has. -/
def fanout (walk : Walk) : Nat :=
  (walk.cfg.blocks.map fun b => (walk.cfg.successors b).length).sum

/-- What is on the list, and what the changes that are left can still put there. -/
def work (engine : ForwardSymbolicEngine) (walk : Walk) (L : Finset Location) (w : WalkState) :
    Nat :=
  w.worklist.length +
    (∑ n ∈ starts walk, engine.remaining L (w.inStates n) (w.visitCounts n)) * fanout walk

theorem Visited.work_lt (encloses : self.Encloses walk L) (inside : Inside L w)
    (head : w.worklist = start :: rest) (visited : self.Visited bound walk w start rest w') :
    self.work walk L w' < self.work walk L w := by
  have pays := visited.remaining encloses inside
  have total : ∑ n ∈ starts walk, self.remaining L (w'.inStates n) (w'.visitCounts n) ≤
      ∑ n ∈ starts walk, self.remaining L (w.inStates n) (w.visitCounts n) :=
    Finset.sum_le_sum fun n _ => (pays n).1
  have listed : w.worklist.length = rest.length + 1 := by rw [head, List.length_cons]
  have popped (same : w'.worklist = rest) : self.work walk L w' < self.work walk L w := by
    have le := Nat.mul_le_mul_right (fanout walk) total
    unfold work
    rw [same]
    omega
  cases visited with
  | noBlock => exact popped rfl
  | refused => exact popped rfl
  | unavailable => exact popped rfl
  | unchanged => exact popped rfl
  | @updated block joined computed out used exceeded found within available value differs sim =>
      cases exceeded with
      | true => exact popped rfl
      | false =>
          have member := CfgModel.byStart_mem found
          have known : start ∈ starts walk := by
            rw [← CfgModel.byStart_startEa found]
            simp only [starts, List.mem_toFinset, List.mem_map]
            exact ⟨block, member, rfl⟩
          have few : (walk.cfg.successors block).length ≤ fanout walk :=
            List.le_sum_of_mem (List.mem_map.mpr ⟨block, member, rfl⟩)
          -- the change that the block has paid for covers its successors
          have changed : Function.update w.inStates start (some computed) start ≠
              w.inStates start := by
            rw [Function.update_self]
            exact fun same => differs same.symm
          have less : ∑ n ∈ starts walk, _ < ∑ n ∈ starts walk, _ :=
            Finset.sum_lt_sum (fun n _ => (pays n).1) ⟨start, known, (pays start).2 changed⟩
          have paid := Nat.mul_le_mul_right (fanout walk) (Nat.succ_le_of_lt less)
          rw [Nat.succ_mul] at paid
          unfold work
          rw [listed]
          simp only [Bool.false_eq_true, if_false, List.length_append, List.length_map]
          dsimp only at paid
          omega

/-- Every decoded instruction lies at its address and has a size. -/
def PositiveSizes (port : IdaPort) : Prop :=
  ∀ ea i, port.decodeAt ea = some i → i.ea = ea ∧ 0 < i.size

/-- Passes return when the bound covers the blocks. -/
theorem exists_visit (sizes : PositiveSizes self.port)
    (enough : ∀ b ∈ walk.cfg.blocks, b.endEa ≤ bound) (w : WalkState) :
    ∃ w', self.visit bound walk w = some w' := by
  have decodes : ∀ ea i, self.port.decodeAt ea = some i → ea < i.nextEa := by
    intro ea i decoded
    rcases sizes ea i decoded with ⟨same, positive⟩
    rw [Instruction.nextEa]
    omega
  unfold visit
  split
  · exact ⟨_, rfl⟩
  · split
    · exact ⟨_, rfl⟩
    · rename_i block found
      dsimp only
      split
      · exact ⟨_, rfl⟩
      · split
        · exact ⟨_, rfl⟩
        · split
          · exact ⟨_, rfl⟩
          · have fits : block.endEa - block.startEa ≤ bound :=
              (Nat.sub_le _ _).trans (enough block (CfgModel.byStart_mem found))
            rcases exists_simulate decodes fits w.instrUsed _ with
              ⟨⟨out, used, exceeded⟩, simulated⟩
            exact ⟨_, by rw [simulateBlock, simulated]; rfl⟩

/-- A pass of a walk without an instruction limit does not end it. -/
theorem Visited.not_exceeded (unlimited : self.maxInstructions = none)
    (ok : w.budgetExceeded = false) (visited : self.Visited bound walk w start rest w') :
    w'.budgetExceeded = false := by
  cases visited with
  | noBlock => exact ok
  | refused => exact ok
  | unavailable => exact ok
  | unchanged => exact ok
  | updated _ _ _ _ _ simulated => exact simulate_unbounded unlimited simulated

/-- What the passes of a walk without an instruction limit keep. -/
theorem keeps_inside (builtin : self.registry = defaultRegistry)
    (unlimited : self.maxInstructions = none) (encloses : self.Encloses walk L)
    (pass : Loop.Pass finished (self.visit bound walk) w w')
    (inv : Inside L w ∧ w.budgetExceeded = false) : Inside L w' ∧ w'.budgetExceeded = false := by
  rcases visited_of_pass pass with ⟨ok, start, rest, _, visited⟩
  have ok' := visited.not_exceeded unlimited ok
  exact ⟨visited.inside builtin encloses inv.1 ok', ok'⟩

theorem inside_start (walk : Walk) : Inside L walk.start := by
  constructor
  · intro n s known
    cases known
  · intro n s known
    cases known

/-- The worklist loop returns. -/
theorem exists_runWorklist (builtin : self.registry = defaultRegistry)
    (unlimited : self.maxInstructions = none) (sizes : PositiveSizes self.port)
    (encloses : self.Encloses walk L) : ∃ bound w, self.runWorklist bound walk = some w := by
  have enough : ∀ b ∈ walk.cfg.blocks,
      b.endEa ≤ self.work walk L walk.start + (walk.cfg.blocks.map (·.endEa)).sum := by
    intro b member
    have le := List.le_sum_of_mem (List.mem_map.mpr ⟨b, member, rfl⟩ :
      b.endEa ∈ walk.cfg.blocks.map (·.endEa))
    omega
  rcases Loop.exists_run (self.work walk L) (fun w _ _ => exists_visit sizes enough w)
    (fun w w' pass inv => keeps_inside builtin unlimited encloses pass inv)
    (fun w w' pass inv => by
      rcases visited_of_pass pass with ⟨_, start, rest, head, visited⟩
      exact visited.work_lt encloses inv.1 head)
    ⟨inside_start walk, rfl⟩ with ⟨w, run⟩
  exact ⟨_, w, Loop.run_mono (Nat.le_add_right _ _) run⟩

/-- The recorded state of a block changes no more often than its `remaining` says. -/
theorem changes_le_remaining (builtin : self.registry = defaultRegistry)
    (unlimited : self.maxInstructions = none) (encloses : self.Encloses walk L) (bound n : Nat) :
    Loop.changes (fun w : WalkState => w.inStates n)
      (Loop.trace finished (self.visit bound walk) bound walk.start) ≤
        self.loopWidenAfter + 1 + 2 * L.card :=
  Loop.changes_le (fun w => self.remaining L (w.inStates n) (w.visitCounts n))
    (fun w w' pass inv => keeps_inside builtin unlimited encloses pass inv)
    (fun w w' pass inv => by
      rcases visited_of_pass pass with ⟨_, start, rest, _, visited⟩
      exact visited.remaining encloses inv.1 n)
    bound ⟨inside_start walk, rfl⟩

/-! ## The locations of a function -/

/-- The seeded register and the locations that occur in the blocks of a function. -/
noncomputable def occurring (engine : ForwardSymbolicEngine) (funcEa reg : Nat) :
    Finset Location :=
  (.reg (some reg) :: (buildCfg engine.port funcEa).blocks.flatMap fun b =>
    (sweepOf engine.port b.endEa b.startEa).flatMap (engine.locationsOf funcEa)).toFinset

theorem encloses_occurring (self : ForwardSymbolicEngine) (funcEa : Nat) (entry : BasicBlockInfo)
    (argIndex : Int) (reg : Nat) :
    self.Encloses (self.walkFrom funcEa entry argIndex reg) (self.occurring funcEa reg) := by
  constructor
  · intro l tracks
    rcases tracks_setRegister.mp tracks with seeded | before
    · simp [occurring, seeded]
    · cases l <;> simp [Tracks, AbstractState.empty] at before
  · intro n b is found sweep i member l occurs
    have block := CfgModel.byStart_mem found
    rw [← sweep.sweepOf_eq] at member
    simp only [occurring, List.mem_toFinset]
    exact List.mem_cons_of_mem _ (List.mem_flatMap.mpr
      ⟨b, block, List.mem_flatMap.mpr ⟨i, member, occurs⟩⟩)

end ForwardSymbolicEngine

/-- Without an instruction limit, the worklist loop returns on every graph, and the recorded
state of a block changes at most `loop_widen_after + 1` times and twice for each location
that occurs in the function. -/
theorem widening_terminates (self : ForwardSymbolicEngine)
    (builtin : self.registry = defaultRegistry) (unlimited : self.maxInstructions = none)
    (sizes : PositiveSizes self.port) (funcEa : Nat) (entry : BasicBlockInfo) (argIndex : Int)
    (reg : Nat) :
    (∃ bound w, self.runWorklist bound (self.walkFrom funcEa entry argIndex reg) = some w) ∧
      ∀ bound n, Loop.changes (fun w : WalkState => w.inStates n)
        (Loop.trace finished (self.visit bound (self.walkFrom funcEa entry argIndex reg)) bound
          (self.walkFrom funcEa entry argIndex reg).start) ≤
        self.loopWidenAfter + 1 + 2 * (self.occurring funcEa reg).card := by
  have encloses := encloses_occurring self funcEa entry argIndex reg
  exact ⟨exists_runWorklist builtin unlimited sizes encloses,
    changes_le_remaining builtin unlimited encloses⟩

theorem FakeIdaPort.positiveSizes {fake : FakeIdaPort}
    (sizes : ∀ i ∈ fake.instructions, 0 < i.size) : PositiveSizes fake.toPort := by
  intro ea i decoded
  have member : i ∈ fake.instructions := by simpa using List.mem_of_find?_eq_some decoded
  exact ⟨by simpa using List.find?_some decoded, sizes i member⟩

/-- Without any limit the walk round the counted loop ends. -/
theorem widening_terminates_countedLoop :
    ∃ bound w, (ForwardSymbolicEngine.mk CountedLoop.port defaultRegistry none none 0).runWorklist
      bound (CountedLoop.graph.walk 0 1) = some w :=
  (widening_terminates ⟨CountedLoop.port, defaultRegistry, none, none, 0⟩ rfl rfl
    (FakeIdaPort.positiveSizes (by decide)) 0x401000 CountedLoop.graph.entry 0 1).1

end IDAnalysister
