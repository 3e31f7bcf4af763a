import IDAnalysister.Forward.Simulation
import IDAnalysister.Library.Dataflow

/-!
# The worklist as a dataflow iteration

A walk solves a dataflow problem over the start addresses of its blocks. A pass of the
worklist loop is a step of the abstract iteration: widening and the order of the list
do not show there, and what is left is which nodes the visit limit drops.
-/

namespace IDAnalysister

/-- Successor and predecessor lists are each other's converse. -/
def CfgModel.Converse (cfg : CfgModel) : Prop :=
  ∀ m n b c, cfg.byStart m = some b → cfg.byStart n = some c →
    (c ∈ cfg.successors b ↔ b ∈ cfg.predecessors c)

/-- It is enough that the lists of start addresses are each other's converse. -/
theorem CfgModel.converse_of_starts {cfg : CfgModel} (starts : ∀ b ∈ cfg.blocks,
    ∀ c ∈ cfg.blocks, c.startEa ∈ b.succStarts ↔ b.startEa ∈ c.predStarts) : cfg.Converse := by
  intro m n b c foundB foundC
  have listed := starts b (CfgModel.byStart_mem foundB) c (CfgModel.byStart_mem foundC)
  have hm := CfgModel.byStart_startEa foundB
  have hn := CfgModel.byStart_startEa foundC
  subst hm hn
  rw [CfgModel.mem_successors, CfgModel.mem_predecessors]
  constructor
  · intro succ
    rcases succ with ⟨start, member, found⟩
    have same := CfgModel.byStart_startEa found
    subst same
    exact ⟨b.startEa, listed.mp member, foundB⟩
  · intro pred
    rcases pred with ⟨start, member, found⟩
    have same := CfgModel.byStart_startEa found
    subst same
    exact ⟨c.startEa, listed.mpr member, foundC⟩

namespace ForwardSymbolicEngine

open AbstractState Dataflow

variable (self : ForwardSymbolicEngine)

/-! ## What a pass does -/

/-- The visit counts after one more visit. -/
def WalkState.counted (w : WalkState) (start : Nat) : Nat → Nat :=
  Function.update w.visitCounts start (w.visitCounts start + 1)

/-- The outcomes of popping `start`. -/
inductive Visited (bound : Nat) (walk : Walk) (w : WalkState) (start : Nat) (rest : List Nat) :
    WalkState → Prop
  | noBlock : walk.cfg.byStart start = none →
    Visited bound walk w start rest { w with worklist := rest }
  | refused {block : BasicBlockInfo} : walk.cfg.byStart start = some block →
    exceeds self.maxBlockVisits (w.visitCounts start + 1) = true →
    Visited bound walk w start rest { w with worklist := rest, visitCounts := w.counted start }
  | unavailable {block : BasicBlockInfo} : walk.cfg.byStart start = some block →
    joinPredecessorStates walk block w.outStates = none →
    Visited bound walk w start rest { w with worklist := rest, visitCounts := w.counted start }
  | unchanged {block : BasicBlockInfo} {joined : AbstractState} :
    walk.cfg.byStart start = some block →
    joinPredecessorStates walk block w.outStates = some joined →
    w.inStates start =
      some (self.computedIn (w.inStates start) joined (w.visitCounts start + 1)) →
    Visited bound walk w start rest { w with worklist := rest, visitCounts := w.counted start }
  | updated {block : BasicBlockInfo} {joined computed out : AbstractState} {used : Nat}
    {exceeded : Bool} : walk.cfg.byStart start = some block →
    exceeds self.maxBlockVisits (w.visitCounts start + 1) = false →
    joinPredecessorStates walk block w.outStates = some joined →
    self.computedIn (w.inStates start) joined (w.visitCounts start + 1) = computed →
    w.inStates start ≠ some computed →
    self.simulateBlock bound walk.funcEa block computed w.instrUsed = some (out, used, exceeded) →
    Visited bound walk w start rest
      { worklist :=
          if exceeded then rest else rest ++ (walk.cfg.successors block).map (·.startEa)
        inStates := Function.update w.inStates start (some computed)
        outStates := Function.update w.outStates start (some out)
        visitCounts := w.counted start
        instrUsed := used
        budgetExceeded := exceeded }

variable {self} {bound start : Nat} {walk : Walk} {w w' : WalkState} {rest : List Nat}

theorem visited_of_visit (head : w.worklist = start :: rest)
    (pass : self.visit bound walk w = some w') : self.Visited bound walk w start rest w' := by
  unfold visit at pass
  rw [head] at pass
  dsimp only at pass
  split at pass
  · rename_i missing
    cases pass
    exact .noBlock missing
  · rename_i block found
    split at pass
    · rename_i capped
      cases pass
      exact .refused found capped
    · rename_i within
      split at pass
      · rename_i none
        cases pass
        exact .unavailable found none
      · rename_i joined available
        split at pass
        · rename_i same
          cases pass
          exact .unchanged found available same
        · rename_i differs
          rcases Option.bind_eq_some_iff.mp pass with ⟨⟨out, used, exceeded⟩, simulated, last⟩
          cases last
          exact .updated found (by simpa using within) available rfl differs simulated

/-- A pass of the loop pops a block. -/
theorem visited_of_pass (pass : Loop.Pass finished (self.visit bound walk) w w') :
    w.budgetExceeded = false ∧ ∃ start rest, w.worklist = start :: rest ∧
      self.Visited bound walk w start rest w' := by
  rcases pass with ⟨more, visit⟩
  simp only [finished, Bool.or_eq_false_iff] at more
  cases head : w.worklist with
  | nil => simp [head] at more
  | cons start rest => exact ⟨more.2, start, rest, rfl, visited_of_visit head visit⟩

/-! ## The dataflow problem -/

/-- The transfer of the block that starts at an address. -/
noncomputable def transferOf (self : ForwardSymbolicEngine) (walk : Walk) (n : Nat) :
    AbstractState → AbstractState :=
  match walk.cfg.byStart n with
  | none => fun s => s
  | some block => self.runSteps walk.funcEa (sweepOf self.port block.endEa block.startEa)

theorem transferOf_tame (builtin : self.registry = defaultRegistry) (walk : Walk) (n : Nat) :
    Tame (fun _ => True) (self.transferOf walk n) := by
  unfold transferOf
  split
  · exact .id
  · exact (runSteps_tame builtin walk.funcEa _).weaken fun _ _ => trivial

/-- The dataflow problem that a walk solves. -/
noncomputable def systemOf (self : ForwardSymbolicEngine)
    (builtin : self.registry = defaultRegistry) (walk : Walk) : System Nat AbstractState where
  pred p v := ∃ b c, walk.cfg.byStart p = some b ∧ walk.cfg.byStart v = some c ∧
    b ∈ walk.cfg.predecessors c
  entry := walk.entry.startEa
  seed := walk.initial
  transfer := self.transferOf walk
  mono n := fun s t le => (transferOf_tame builtin walk n).mono s t le

/-- What the dictionaries of a walk amount to. -/
structure Consistent {engine : ForwardSymbolicEngine} (builtin : engine.registry = defaultRegistry)
    (bound : Nat) (walk : Walk) (w : WalkState) : Prop where
  outs : ∀ n, w.outStates n = (w.inStates n).map (engine.transferOf walk n)
  scalar : ∀ n s, w.inStates n = some s → s.Scalar
  /-- A recorded block was simulated to its end. -/
  simulated : ∀ n s block, w.inStates n = some s → walk.cfg.byStart n = some block →
    ∃ used out used', engine.simulateBlock bound walk.funcEa block s used = some (out, used', false)
  descending : (engine.systemOf builtin walk).Descending w.inStates

/-- A walk starts at one of its blocks, from a scalar state. -/
structure Walk.Proper (walk : Walk) : Prop where
  entry_mem : walk.entry ∈ walk.cfg.blocks
  scalar : walk.initial.Scalar

theorem CfgModel.exists_byStart {cfg : CfgModel} {b : BasicBlockInfo} (member : b ∈ cfg.blocks) :
    ∃ c, cfg.byStart b.startEa = some c := by
  cases found : cfg.byStart b.startEa with
  | none =>
      have absent := List.find?_eq_none.mp found b (by simpa using member)
      simp at absent
  | some c => exact ⟨c, rfl⟩

variable {builtin : self.registry = defaultRegistry}

/-- The out-states that are joined are what the abstract problem passes on. -/
theorem mem_available_iff (consistent : Consistent builtin bound walk w) {block : BasicBlockInfo}
    (found : walk.cfg.byStart start = some block) {y : AbstractState} :
    y ∈ (walk.cfg.predecessors block).filterMap (fun p => w.outStates p.startEa) ↔
      y ∈ (self.systemOf builtin walk).incoming w.inStates start := by
  simp only [List.mem_filterMap, System.incoming, Set.mem_ofPred_eq]
  constructor
  · intro available
    rcases available with ⟨p, pred, out⟩
    rw [consistent.outs] at out
    rcases Option.map_eq_some_iff.mp out with ⟨x, visited, rfl⟩
    rcases CfgModel.mem_predecessors.mp pred with ⟨n, _, known⟩
    have same := CfgModel.byStart_startEa known
    subst same
    exact ⟨p.startEa, x, ⟨p, block, known, found, pred⟩, visited, rfl⟩
  · intro passed
    rcases passed with ⟨n, x, ⟨b, c, known, found', pred⟩, visited, rfl⟩
    rw [found] at found'
    cases found'
    have same := CfgModel.byStart_startEa known
    subst same
    refine ⟨b, pred, ?_⟩
    rw [consistent.outs, visited]
    rfl

theorem widen_self (s : AbstractState) : s.widen s = s := by
  apply ext_of_read
  · intro l
    rw [tracks_widen, or_self]
  · intro l
    rw [read_widen, pin_self]

/-- The state that a visit computes is admissible for the block. -/
theorem computedIn_admits (proper : walk.Proper) (consistent : Consistent builtin bound walk w)
    {block : BasicBlockInfo} (found : walk.cfg.byStart start = some block)
    {joined : AbstractState}
    (available : joinPredecessorStates walk block w.outStates = some joined)
    (visits : Nat) :
    (self.systemOf builtin walk).Admits w.inStates start
        (self.computedIn (w.inStates start) joined visits) ∧
      (self.computedIn (w.inStates start) joined visits).Scalar := by
  have same := CfgModel.byStart_startEa found
  unfold joinPredecessorStates at available
  split at available
  · rename_i atEntry
    cases available
    have entry : start = walk.entry.startEa := same.symm.trans atEntry
    have value : self.computedIn (w.inStates start) walk.initial visits = walk.initial := by
      unfold computedIn
      split
      · rfl
      · rename_i prev recorded
        rw [entry] at recorded
        rw [consistent.descending.entry prev recorded]
        change (if _ then walk.initial.widen walk.initial else walk.initial) = _
        rw [widen_self, ite_self]
    rw [value]
    exact ⟨Or.inl ⟨entry, rfl⟩, proper.scalar⟩
  · rename_i notEntry
    have other : start ≠ walk.entry.startEa := fun h => notEntry (same.trans h)
    dsimp only at available
    split at available
    · cases available
    · rename_i nonempty
      cases available
      generalize listed : (walk.cfg.predecessors block).filterMap (fun p => w.outStates p.startEa) =
        outs at nonempty
      have members (y : AbstractState) : y ∈ outs ↔
          y ∈ (self.systemOf builtin walk).incoming w.inStates start := by
        rw [← listed]
        exact mem_available_iff consistent found
      have incoming : (self.systemOf builtin walk).incoming w.inStates start = {y | y ∈ outs} := by
        ext y
        exact (members y).symm
      have scalars : ∀ y ∈ outs, y.Scalar := by
        intro y member
        rcases (members y).mp member with ⟨p, x, _, visited, rfl⟩
        exact (transferOf_tame builtin walk p).scalar x (consistent.scalar p x visited)
      have glb := isGLB_joinStates nonempty
      have scalar := scalar_joinStates scalars
      rcases List.exists_mem_of_ne_nil outs nonempty with ⟨y, member⟩
      have some' : ((self.systemOf builtin walk).incoming w.inStates start).Nonempty :=
        ⟨y, (members y).mp member⟩
      unfold computedIn
      split
      · exact ⟨Or.inr ⟨other, some', incoming ▸ glb⟩, scalar⟩
      · rename_i prev recorded
        split
        · -- what is joined lies below the recorded state, so widening keeps what it knows
          have below : joinStates outs ≤ prev :=
            consistent.descending.above start other prev recorded _ (by rw [incoming]; exact glb.1)
          refine ⟨Or.inr ⟨other, some', ?_⟩, scalar_widen (consistent.scalar start prev recorded)⟩
          rw [incoming]
          constructor
          · intro z inside
            exact (widen_le prev (joinStates outs)).trans (glb.1 inside)
          · intro z lower
            exact (glb.2 lower).trans (le_widen scalar below)
        · exact ⟨Or.inr ⟨other, some', incoming ▸ glb⟩, scalar⟩

/-! ## A pass is a step of the iteration -/

/-- The nodes that a walk still has to look at. -/
def progress (w : WalkState) : System.Progress Nat AbstractState :=
  ⟨w.inStates, {n | n ∈ w.worklist}⟩

/-- Popping the node would change nothing. -/
def Quiet (builtin : self.registry = defaultRegistry) (walk : Walk)
    (facts : Nat → Option AbstractState) (v : Nat) : Prop :=
  (self.systemOf builtin walk).Covered facts v ∧
    (v ≠ walk.entry.startEa → (self.systemOf builtin walk).Stable facts v)

theorem quiet_of_unreached {facts : Nat → Option AbstractState} {v : Nat}
    (other : v ≠ walk.entry.startEa)
    (unreached : (self.systemOf builtin walk).incoming facts v = ∅) :
    Quiet builtin walk facts v := by
  constructor
  · intro reached
    rcases reached with entry | nonempty
    · exact (other entry).elim
    · rw [unreached] at nonempty
      exact (Set.not_nonempty_empty nonempty).elim
  · intro _ x _
    rw [unreached]
    intro y member
    exact (Set.notMem_empty y member).elim

theorem Visited.quiet (proper : walk.Proper) (consistent : Consistent builtin bound walk w)
    (within : ∀ block, walk.cfg.byStart start = some block →
      exceeds self.maxBlockVisits (w.visitCounts start + 1) = false)
    (same : w'.inStates = w.inStates)
    (visited : self.Visited bound walk w start rest w') : Quiet builtin walk w.inStates start := by
  cases visited with
  | noBlock missing =>
      apply quiet_of_unreached
      · intro entry
        rcases CfgModel.exists_byStart proper.entry_mem with ⟨c, found⟩
        rw [entry, found] at missing
        cases missing
      · ext y
        simp only [System.incoming, Set.mem_ofPred_eq, Set.mem_empty_iff_false, iff_false]
        intro passed
        rcases passed with ⟨p, x, ⟨b, c, _, found, _⟩, _⟩
        rw [missing] at found
        cases found
  | refused found capped =>
      rw [within _ found] at capped
      cases capped
  | unavailable found none =>
      unfold joinPredecessorStates at none
      split at none
      · cases none
      · rename_i notEntry
        dsimp only at none
        split at none
        · rename_i empty
          have here := CfgModel.byStart_startEa found
          apply quiet_of_unreached
          · intro entry
            exact notEntry (here.trans entry)
          · ext y
            rw [← mem_available_iff consistent found, empty]
            simp
        · cases none
  | unchanged found available recorded =>
      have admits := (computedIn_admits proper consistent found available
        (w.visitCounts start + 1)).1
      constructor
      · intro _
        rw [recorded]
        rfl
      · intro other x known
        rw [recorded] at known
        cases known
        rcases admits with ⟨entry, _⟩ | ⟨_, _, glb⟩
        · exact (other entry).elim
        · exact glb.1
  | updated found _ _ _ differs _ =>
      have value := congrFun same.symm start
      dsimp only at value
      rw [Function.update_self] at value
      exact (differs value).elim

/-- A pass pops a node that it drops, or gives a new fact and pushes the successors. -/
theorem Visited.step {dropped : (Nat → Option AbstractState) → Nat → Prop}
    (proper : walk.Proper) (converse : walk.cfg.Converse)
    (consistent : Consistent builtin bound walk w) (head : w.worklist = start :: rest)
    (refused : ∀ block, walk.cfg.byStart start = some block →
      exceeds self.maxBlockVisits (w.visitCounts start + 1) = true → dropped w.inStates start)
    (quiet : Quiet builtin walk w.inStates start → dropped w.inStates start)
    (visited : self.Visited bound walk w start rest w') (ok : w'.budgetExceeded = false) :
    (self.systemOf builtin walk).Step dropped (progress w) (progress w') := by
  have kept : ∀ n ∈ (progress w).pending, n ≠ start → n ∈ rest := by
    intro n member other
    have listed : n ∈ w.worklist := member
    rw [head] at listed
    exact List.mem_of_ne_of_mem other listed
  have drops (same : w'.inStates = w.inStates) : dropped w.inStates start := by
    by_cases capped : ∃ block, walk.cfg.byStart start = some block ∧
        exceeds self.maxBlockVisits (w.visitCounts start + 1) = true
    · rcases capped with ⟨block, found, capped⟩
      exact refused block found capped
    · push Not at capped
      exact quiet (visited.quiet proper consistent (fun block found => by
        simpa using capped block found) same)
  cases visited with
  | noBlock => exact .drop (drops rfl) kept
  | refused => exact .drop (drops rfl) kept
  | unavailable => exact .drop (drops rfl) kept
  | unchanged => exact .drop (drops rfl) kept
  | @updated block joined computed out used exceeded found _ available value _ _ =>
      have within : exceeded = false := ok
      subst within value
      have admits := (computedIn_admits proper consistent found available
        (w.visitCounts start + 1)).1
      refine .update admits (fun n member other => ?_) (fun u edge => ?_)
      · exact List.mem_append_left _ (kept n member other)
      · rcases edge with ⟨b, c, foundB, foundC, pred⟩
        rw [found] at foundB
        cases foundB
        have succ := (converse start u block c found foundC).mpr pred
        have name := CfgModel.byStart_startEa foundC
        exact List.mem_append_right _ (List.mem_map.mpr ⟨c, succ, name⟩)

theorem Visited.consistent (proper : walk.Proper) (consistent : Consistent builtin bound walk w)
    (visited : self.Visited bound walk w start rest w') (ok : w'.budgetExceeded = false) :
    Consistent builtin bound walk w' := by
  cases visited with
  | noBlock =>
      exact ⟨consistent.outs, consistent.scalar, consistent.simulated, consistent.descending⟩
  | refused =>
      exact ⟨consistent.outs, consistent.scalar, consistent.simulated, consistent.descending⟩
  | unavailable =>
      exact ⟨consistent.outs, consistent.scalar, consistent.simulated, consistent.descending⟩
  | unchanged =>
      exact ⟨consistent.outs, consistent.scalar, consistent.simulated, consistent.descending⟩
  | @updated block joined computed out used exceeded found _ available value _ simulated =>
      have within : exceeded = false := ok
      subst within value
      rcases computedIn_admits proper consistent found available
        (w.visitCounts start + 1) with ⟨admits, scalar⟩
      rcases simulate_eq_runSteps simulated with ⟨is, sweep, rfl⟩
      constructor
      · intro n
        by_cases here : n = start
        · subst here
          dsimp only
          rw [Function.update_self, Function.update_self, Option.map_some, transferOf, found]
          dsimp only
          rw [sweep.sweepOf_eq]
        · dsimp only
          rw [Function.update_of_ne here, Function.update_of_ne here]
          exact consistent.outs n
      · intro n s known
        rcases System.of_update_eq_some known with ⟨rfl, rfl⟩ | ⟨_, known⟩
        · exact scalar
        · exact consistent.scalar n s known
      · intro n s c known found'
        rcases System.of_update_eq_some known with ⟨rfl, rfl⟩ | ⟨_, known⟩
        · rw [found] at found'
          cases found'
          exact ⟨_, _, _, simulated⟩
        · exact consistent.simulated n s c known found'
      · exact consistent.descending.update admits

theorem consistent_start (builtin : self.registry = defaultRegistry) (bound : Nat) (walk : Walk) :
    Consistent builtin bound walk walk.start := by
  refine ⟨fun _ => rfl, ?_, ?_, ?_, ?_, ?_, ?_⟩
  · intro n s known
    cases known
  · intro n s block known
    cases known
  · intro x known
    cases known
  · intro v x known
    cases known
  · intro v _ x known
    cases known
  · intro v _ x known
    cases known

/-- Every state a walk goes through is consistent, as long as the instruction limit is
not exceeded. -/
theorem consistent_of_passes (builtin : self.registry = defaultRegistry) (proper : walk.Proper)
    (passes : Loop.Passes finished (self.visit bound walk) walk.start w)
    (ok : w.budgetExceeded = false) : Consistent builtin bound walk w := by
  induction passes with
  | refl => exact consistent_start builtin bound walk
  | tail _ last ih =>
      rcases visited_of_pass last with ⟨within, n, rest, _, visited⟩
      exact visited.consistent proper (ih within) ok

end ForwardSymbolicEngine

end IDAnalysister
