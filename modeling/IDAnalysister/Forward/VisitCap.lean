import IDAnalysister.Forward.Exactness

/-!
# The visit limit

A block that was popped more often than `max_block_visits` allows is skipped, and an
answer may then be read from a state that its predecessors no longer support. A walk
has converged exactly when no pop that the limit skips would have lost a value.
-/

namespace IDAnalysister

open Dataflow ForwardSymbolicEngine AbstractState

namespace ForwardSymbolicEngine

/-- Every location that is known in the recorded in-state of a block has the same value in
the recorded out-state of each of its predecessors. -/
def Converged (walk : Walk) (w : WalkState) : Prop :=
  ∀ n b, walk.cfg.byStart n = some b → n ≠ walk.entry.startEa →
    ∀ s, w.inStates n = some s → ∀ p ∈ walk.cfg.predecessors b,
      ∀ out, w.outStates p.startEa = some out →
        ∀ l, (s.read l).isKnown → out.read l = s.read l

/-- What the predecessors of a block now pass on still has every value that is known in
its recorded in-state. -/
def Settled (walk : Walk) (w : WalkState) (b : BasicBlockInfo) : Prop :=
  ∀ s joined, w.inStates b.startEa = some s →
    joinPredecessorStates walk b w.outStates = some joined → s ≤ joined

/-- The next pop is of a block other than the entry, which the visit limit skips. -/
structure Skips (engine : ForwardSymbolicEngine) (walk : Walk) (w : WalkState)
    (b : BasicBlockInfo) : Prop where
  head : ∃ rest, w.worklist = b.startEa :: rest
  found : walk.cfg.byStart b.startEa = some b
  other : b.startEa ≠ walk.entry.startEa
  capped : exceeds engine.maxBlockVisits (w.visitCounts b.startEa + 1) = true

variable {self : ForwardSymbolicEngine} {builtin : self.registry = defaultRegistry}
variable {bound start n : Nat} {walk : Walk} {w w' e : WalkState} {rest : List Nat}
variable {b : BasicBlockInfo}

/-! ## Settled blocks are stable -/

theorem lowerBounds_incoming (consistent : Consistent builtin bound walk w)
    (found : walk.cfg.byStart b.startEa = some b) (other : b.startEa ≠ walk.entry.startEa)
    {s : AbstractState} :
    s ∈ lowerBounds ((self.systemOf builtin walk).incoming w.inStates b.startEa) ↔
      ∀ joined, joinPredecessorStates walk b w.outStates = some joined → s ≤ joined := by
  have members (y : AbstractState) := mem_available_iff consistent found (y := y)
  rw [joinPredecessorStates, if_neg other]
  dsimp only
  constructor
  · intro lower joined available
    split at available
    · cases available
    · rename_i nonempty
      cases available
      exact (isGLB_joinStates nonempty).2 fun y member => lower ((members y).mp member)
  · intro below y member
    have listed := (members y).mpr member
    have nonempty := List.ne_nil_of_mem listed
    rw [if_neg nonempty] at below
    exact (below _ rfl).trans ((isGLB_joinStates nonempty).1 listed)

theorem settled_iff_stable (consistent : Consistent builtin bound walk w)
    (found : walk.cfg.byStart b.startEa = some b) (other : b.startEa ≠ walk.entry.startEa) :
    Settled walk w b ↔ (self.systemOf builtin walk).Stable w.inStates b.startEa := by
  constructor
  · intro settled s known
    exact (lowerBounds_incoming consistent found other).mpr fun joined => settled s joined known
  · intro stable s joined known
    exact (lowerBounds_incoming consistent found other).mp (stable s known) joined

/-- On scalar states, below and equal where known are the same. -/
theorem le_iff_known {s t : AbstractState} (scalar : s.Scalar) :
    s ≤ t ↔ ∀ l, (s.read l).isKnown → t.read l = s.read l := by
  constructor
  · intro le l known
    exact (scalar l).eq_of_le known (le l)
  · intro same l
    cases known : (s.read l).isKnown with
    | true => exact (same l known).ge
    | false => exact ValueLattice.le_of_unknown known _

theorem converged_iff_stable (consistent : Consistent builtin bound walk w) :
    Converged walk w ↔ ∀ b, walk.cfg.byStart b.startEa = some b →
      b.startEa ≠ walk.entry.startEa →
        (self.systemOf builtin walk).Stable w.inStates b.startEa := by
  constructor
  · intro converged b found other s known y member
    have listed := (mem_available_iff consistent found).mpr member
    rcases List.mem_filterMap.mp listed with ⟨p, pred, out⟩
    exact (le_iff_known (consistent.scalar _ s known)).mpr
      (converged _ b found other s known p pred y out)
  · intro stable n b found other s known p pred out passed
    have same := CfgModel.byStart_startEa found
    subst same
    have listed : out ∈ (walk.cfg.predecessors b).filterMap (fun p => w.outStates p.startEa) :=
      List.mem_filterMap.mpr ⟨p, pred, passed⟩
    have below := stable b found other s known ((mem_available_iff consistent found).mp listed)
    exact (le_iff_known (consistent.scalar _ s known)).mp below

/-! ## The rest of a walk -/

/-- A pass lowers the recorded states. -/
theorem later_of_passes (proper : walk.Proper) (converse : walk.cfg.Converse)
    (consistent : Consistent builtin bound walk w)
    (passes : Loop.Passes finished (self.visit bound walk) w e) (ok : e.budgetExceeded = false) :
    Consistent builtin bound walk e ∧ System.Lowers w.inStates e.inStates := by
  induction passes with
  | refl => exact ⟨consistent, fun v x known => ⟨x, known, le_refl x⟩⟩
  | @tail m e _ last ih =>
      rcases visited_of_pass last with ⟨within, start, rest, head, visited⟩
      rcases ih within with ⟨middle, lowers⟩
      have step : (self.systemOf builtin walk).Step (fun _ _ => True) (progress m) (progress e) :=
        visited.step proper converse middle head (fun _ _ _ => trivial) (fun _ => trivial) ok
      have lowers' : System.Lowers m.inStates e.inStates := step.lowers middle.descending
      refine ⟨visited.consistent proper middle ok, ?_⟩
      intro v x known
      rcases lowers v x known with ⟨y, known', le⟩
      rcases lowers' v y known' with ⟨z, known'', le'⟩
      exact ⟨z, known'', le'.trans le⟩

theorem counts_le_of_passes (passes : Loop.Passes finished (self.visit bound walk) w e) (n : Nat) :
    w.visitCounts n ≤ e.visitCounts n := by
  induction passes with
  | refl => exact Nat.le_refl _
  | tail _ last ih =>
      rcases visited_of_pass last with ⟨_, _, _, _, visited⟩
      exact ih.trans (visited.counts_le n)

/-- Once the limit skips a block, its state is never computed again. -/
theorem frozen_of_passes (capped : exceeds self.maxBlockVisits (w.visitCounts n + 1) = true)
    (passes : Loop.Passes finished (self.visit bound walk) w e) :
    e.inStates n = w.inStates n ∧ exceeds self.maxBlockVisits (e.visitCounts n + 1) = true := by
  induction passes with
  | refl => exact ⟨rfl, capped⟩
  | @tail m e _ last ih =>
      rcases visited_of_pass last with ⟨_, start, rest, _, visited⟩
      rcases ih with ⟨same, capped'⟩
      have more : exceeds self.maxBlockVisits (e.visitCounts n + 1) = true := by
        by_contra within
        have le := visited.counts_le n
        have within' := exceeds_mono (Nat.succ_le_succ le) (by simpa using within)
        rw [capped'] at within'
        cases within'
      refine ⟨?_, more⟩
      rw [← same]
      cases visited with
      | noBlock => rfl
      | refused => rfl
      | unavailable => rfl
      | unchanged => rfl
      | @updated block joined computed out used exceeded found within _ _ _ _ =>
          have other : n ≠ start := by
            intro here
            subst here
            rw [within] at capped'
            cases capped'
          exact Function.update_of_ne other ..

/-! ## Convergence -/

/-- Settled skips keep every block settled or waiting. -/
theorem settling_of_passes (proper : walk.Proper) (converse : walk.cfg.Converse)
    (passes : Loop.Passes finished (self.visit bound walk) walk.start w)
    (ok : w.budgetExceeded = false)
    (settled : ∀ m b, Loop.Passes finished (self.visit bound walk) walk.start m →
      self.Skips walk m b → Settled walk m b) :
    (self.systemOf builtin walk).Settling (progress w) := by
  induction passes with
  | refl => exact (exact_start builtin walk).settling
  | @tail m w passes last ih =>
      rcases visited_of_pass last with ⟨within, start, rest, head, visited⟩
      have consistent := consistent_of_passes builtin proper passes within
      have step : (self.systemOf builtin walk).Step
          (fun facts v => v ≠ walk.entry.startEa → (self.systemOf builtin walk).Stable facts v)
          (progress m) (progress w) := by
        refine visited.step proper converse consistent head ?_ (fun quiet => quiet.2) ok
        intro block found capped other
        have same := CfgModel.byStart_startEa found
        subst same
        exact (settled_iff_stable consistent found other).mp
          (settled m block passes ⟨⟨rest, head⟩, found, other, capped⟩)
      exact step.settling (fun facts v other stable => stable other) (ih within)

/-- A walk in which no block is popped more often than the limit allows skips none. -/
theorem settled_of_withinVisits (run : self.runWorklist bound walk = some w)
    (ok : w.budgetExceeded = false) (visits : self.WithinVisits w) :
    ∀ m b, Loop.Passes finished (self.visit bound walk) walk.start m →
      self.Skips walk m b → Settled walk m b := by
  intro m b early skips
  rcases Loop.passes_of_run run with ⟨passes, done⟩
  rcases skips.head with ⟨rest, head⟩
  rcases (passes.to_end done early).cases_head with same | ⟨next, pass, later⟩
  · subst same
    have empty : m.worklist = [] := by
      simpa [finished, ok] using done
    rw [head] at empty
    cases empty
  · rcases visited_of_pass pass with ⟨_, start, rest', head', visited⟩
    have same := (List.cons.inj (head.symm.trans head')).1
    subst same
    have counted := visited.counts_start skips.found
    have le := counts_le_of_passes later b.startEa
    have within := exceeds_mono (counted ▸ le) (visits b.startEa)
    rw [skips.capped] at within
    cases within

/-! ## A skipped block has been recorded -/

/-- Every block on the list has something to receive, and every visited one was recorded. -/
structure Fed {engine : ForwardSymbolicEngine} (builtin : engine.registry = defaultRegistry)
    (walk : Walk) (w : WalkState) : Prop where
  waiting : ∀ n ∈ w.worklist,
    n = walk.entry.startEa ∨ ((engine.systemOf builtin walk).incoming w.inStates n).Nonempty
  visited : ∀ n, 0 < w.visitCounts n → (w.inStates n).isSome

theorem joined_of_fed (consistent : Consistent builtin bound walk w)
    (found : walk.cfg.byStart start = some b)
    (fed : start = walk.entry.startEa ∨
      ((self.systemOf builtin walk).incoming w.inStates start).Nonempty) :
    joinPredecessorStates walk b w.outStates ≠ none := by
  intro none
  have same := CfgModel.byStart_startEa found
  unfold joinPredecessorStates at none
  split at none
  · cases none
  · rename_i other
    rcases fed with entry | ⟨y, passed⟩
    · exact other (same.trans entry)
    · have listed := (mem_available_iff consistent found).mpr passed
      dsimp only at none
      rw [if_neg (List.ne_nil_of_mem listed)] at none
      cases none

theorem Visited.fed (proper : walk.Proper) (converse : walk.cfg.Converse)
    (first : exceeds self.maxBlockVisits 1 = false)
    (consistent : Consistent builtin bound walk w) (head : w.worklist = start :: rest)
    (fed : Fed builtin walk w) (visited : self.Visited bound walk w start rest w')
    (ok : w'.budgetExceeded = false) : Fed builtin walk w' := by
  have step : (self.systemOf builtin walk).Step (fun _ _ => True) (progress w) (progress w') :=
    visited.step proper converse consistent head (fun _ _ _ => trivial) (fun _ => trivial) ok
  have lowers : System.Lowers w.inStates w'.inStates := step.lowers consistent.descending
  have here := fed.waiting start (by simp [head])
  have kept : ∀ n ∈ rest, n = walk.entry.startEa ∨
      ((self.systemOf builtin walk).incoming w'.inStates n).Nonempty := by
    intro n member
    rcases fed.waiting n (by simp [head, member]) with entry | nonempty
    · exact Or.inl entry
    · exact Or.inr (System.incoming_nonempty_of_lowers lowers nonempty)
  -- a node with a visit keeps its state, and the popped one has a state afterwards
  have recorded : (∀ block, walk.cfg.byStart start = some block → (w'.inStates start).isSome) →
      ∀ n, 0 < w'.visitCounts n → (w'.inStates n).isSome := by
    intro popped n positive
    rw [visited.counts] at positive
    by_cases new : n = start ∧ (walk.cfg.byStart start).isSome
    · rcases Option.isSome_iff_exists.mp new.2 with ⟨block, found⟩
      rw [new.1]
      exact popped block found
    · rw [if_neg new] at positive
      rcases Option.isSome_iff_exists.mp (fed.visited n (by omega)) with ⟨s, known⟩
      rcases lowers n s known with ⟨s', known', _⟩
      rw [known']
      rfl
  cases visited with
  | noBlock missing =>
      refine ⟨kept, recorded ?_⟩
      intro block found
      rw [missing] at found
      cases found
  | refused found capped =>
      refine ⟨kept, recorded fun _ _ => ?_⟩
      -- a node that the limit skips was visited before
      apply fed.visited
      by_contra never
      have zero : w.visitCounts start = 0 := by omega
      rw [zero, first] at capped
      cases capped
  | unavailable found none => exact (joined_of_fed consistent found here none).elim
  | unchanged _ _ same =>
      refine ⟨kept, recorded fun _ _ => ?_⟩
      rw [same]
      rfl
  | @updated block joined computed out used exceeded found _ _ _ _ _ =>
      have within : exceeded = false := ok
      subst within
      have updated : Function.update w.inStates start (some computed) start = some computed :=
        Function.update_self ..
      refine ⟨?_, recorded fun _ _ => Option.isSome_iff_exists.mpr ⟨_, updated⟩⟩
      intro n member
      rcases List.mem_append.mp member with old | pushed
      · exact kept n old
      · rcases List.mem_map.mp pushed with ⟨c, succ, rfl⟩
        rcases CfgModel.mem_successors.mp succ with ⟨m, _, foundC⟩
        have same := CfgModel.byStart_startEa foundC
        subst same
        have pred := (converse start c.startEa block c found foundC).mp succ
        exact Or.inr ⟨_, start, computed, ⟨block, c, found, foundC, pred⟩, updated, rfl⟩

theorem fed_of_passes (builtin : self.registry = defaultRegistry) (proper : walk.Proper)
    (converse : walk.cfg.Converse) (first : exceeds self.maxBlockVisits 1 = false)
    (passes : Loop.Passes finished (self.visit bound walk) walk.start w)
    (ok : w.budgetExceeded = false) : Fed builtin walk w := by
  induction passes with
  | refl =>
      constructor
      · intro n member
        exact Or.inl (List.mem_singleton.mp member)
      · intro n positive
        exact absurd positive (Nat.lt_irrefl 0)
  | tail passes last ih =>
      rcases visited_of_pass last with ⟨within, _, _, head, visited⟩
      exact visited.fed proper converse first (consistent_of_passes builtin proper passes within)
        head (ih within) ok

/-- Settled skips leave nothing pending uncovered. -/
theorem covering_of_passes (builtin : self.registry = defaultRegistry) (proper : walk.Proper)
    (converse : walk.cfg.Converse) (first : exceeds self.maxBlockVisits 1 = false)
    (passes : Loop.Passes finished (self.visit bound walk) walk.start w)
    (ok : w.budgetExceeded = false) :
    (self.systemOf builtin walk).Covering (progress w) := by
  induction passes with
  | refl => exact (exact_start builtin walk).covering
  | @tail m w passes last ih =>
      rcases visited_of_pass last with ⟨within, start, rest, head, visited⟩
      have consistent := consistent_of_passes builtin proper passes within
      have fed := fed_of_passes builtin proper converse first passes within
      have step : (self.systemOf builtin walk).Step
          (fun facts v => (self.systemOf builtin walk).Covered facts v)
          (progress m) (progress w) := by
        refine visited.step proper converse consistent head ?_ (fun quiet => quiet.1) ok
        intro block found capped _
        apply fed.visited
        by_contra never
        have zero : m.visitCounts start = 0 := by omega
        rw [zero, first] at capped
        cases capped
      exact step.covering (fun facts v covered => covered) (ih within)

/-- What the walk has found when every skip was settled. -/
theorem final_of_skips_settled (builtin : self.registry = defaultRegistry) (proper : walk.Proper)
    (converse : walk.cfg.Converse) (run : self.runWorklist bound walk = some w)
    (ok : w.budgetExceeded = false) (first : exceeds self.maxBlockVisits 1 = false)
    (settled : ∀ m b, Loop.Passes finished (self.visit bound walk) walk.start m →
      self.Skips walk m b → Settled walk m b) :
    Consistent builtin bound walk w ∧ (self.systemOf builtin walk).Final w.inStates := by
  rcases Loop.passes_of_run run with ⟨passes, done⟩
  have consistent := consistent_of_passes builtin proper passes ok
  have empty : w.worklist = [] := by
    simpa [finished, ok] using done
  have nothing (v : Nat) : v ∉ (progress w).pending := by simp [progress, empty]
  refine ⟨consistent, consistent.descending, ?_, ?_⟩
  · intro v other
    exact (settling_of_passes proper converse passes ok settled v other).resolve_left (nothing v)
  · intro v
    exact (covering_of_passes builtin proper converse first passes ok v).resolve_left (nothing v)

theorem proper_walkFrom {funcEa reg : Nat} {argIndex : Int} {entry : BasicBlockInfo}
    (found : (buildCfg self.port funcEa).blockContaining funcEa = some entry) :
    (self.walkFrom funcEa entry argIndex reg).Proper :=
  ⟨List.mem_of_find?_eq_some found, ConsistentCfg.scalar_seed reg argIndex⟩

end ForwardSymbolicEngine

/-- A walk that answers has converged if and only if the visit limit skips a block only
where what the predecessors pass on still has every value recorded for it. -/
theorem converged_iff_skips_settled (self : ForwardSymbolicEngine)
    (builtin : self.registry = defaultRegistry) {funcEa : Nat}
    (converse : (buildCfg self.port funcEa).Converse) {entry : BasicBlockInfo}
    (found : (buildCfg self.port funcEa).blockContaining funcEa = some entry)
    {bound targetEa reg : Nat} {argIndex : Int} {w : WalkState}
    (run : self.runWorklist bound (self.walkFrom funcEa entry argIndex reg) = some w)
    {v : ValueLattice}
    (answer : self.resolveAt bound funcEa argIndex targetEa (some reg) = some v)
    (known : v.isKnown) :
    Converged (self.walkFrom funcEa entry argIndex reg) w ↔
      ∀ m b, Loop.Passes finished (self.visit bound (self.walkFrom funcEa entry argIndex reg))
          (self.walkFrom funcEa entry argIndex reg).start m →
        self.Skips (self.walkFrom funcEa entry argIndex reg) m b →
        Settled (self.walkFrom funcEa entry argIndex reg) m b := by
  have ok := not_exceeded_of_known found run answer known
  have proper : (self.walkFrom funcEa entry argIndex reg).Proper := proper_walkFrom found
  have converse : (self.walkFrom funcEa entry argIndex reg).cfg.Converse := converse
  generalize self.walkFrom funcEa entry argIndex reg = walk at run proper converse ⊢
  rcases Loop.passes_of_run run with ⟨passes, done⟩
  have consistent := consistent_of_passes builtin proper passes ok
  have empty : w.worklist = [] := by
    simpa [finished, ok] using done
  rw [converged_iff_stable consistent]
  constructor
  · intro stable m b early skips
    -- what the rest of the walk does only lowers what the predecessors pass on
    have rest := passes.to_end done early
    have within : m.budgetExceeded = false := by
      rcases rest.cases_head with same | ⟨_, pass, _⟩
      · rw [same]
        exact ok
      · exact (visited_of_pass pass).1
    have consistent' := consistent_of_passes builtin proper early within
    have lowers := (later_of_passes proper converse consistent' rest ok).2
    have frozen := (frozen_of_passes skips.capped rest).1
    rw [settled_iff_stable consistent' skips.found skips.other]
    intro s recorded
    rw [← frozen] at recorded
    exact System.lowerBounds_of_lowers lowers (stable b skips.found skips.other s recorded)
  · intro settled b _ other
    have settling : (self.systemOf builtin walk).Settling (progress w) :=
      settling_of_passes proper converse passes ok settled
    refine (settling b.startEa other).resolve_left ?_
    simp [progress, empty]

/-! ## A dispatcher with sixty-four handlers -/

namespace Dispatcher

def handlers : List Nat := (List.range 64).map fun k => 0x401002 + 2 * k

def entry : BasicBlockInfo := ⟨0x401000, 0x401002, handlers, []⟩

/-- Where the handlers go on. -/
def dispatch : BasicBlockInfo := ⟨0x402000, 0x402002, [0x402002], handlers ++ [0x402002]⟩

/-- Where `eax` is overwritten on the way back to the dispatcher. -/
def next : BasicBlockInfo := ⟨0x402002, 0x402009, [0x402000], [0x402000]⟩

def port : IdaPort := FakeIdaPort.toPort
  { pointerSize := 4
    instructions :=
      FakeIdaPort.insn 0x401000 "jmp" 2 [FakeIdaPort.reg 0 3] ::
        handlers.map (fun ea => FakeIdaPort.jump ea "jmp" 2 0x402000) ++
        [FakeIdaPort.jump 0x402000 "jmp" 2 0x402002,
          FakeIdaPort.insn 0x402002 "mov" 5 [FakeIdaPort.reg 0 0, FakeIdaPort.imm 1 5],
          FakeIdaPort.jump 0x402007 "jmp" 2 0x402000]
    funcBounds := [(0x401000, 0x402009)]
    blocks := [(0x401000, entry :: handlers.map (fun ea => ⟨ea, ea + 2, [0x402000], [0x401000]⟩) ++
      [dispatch, next])] }

/-- The engine with its default limits. -/
def engine : ForwardSymbolicEngine := ⟨port, defaultRegistry, some 4000, some 64, 3⟩

/-- The walk for an argument in `eax`. -/
abbrev walk : Walk := engine.walkFrom 0x401000 entry 0 0

theorem converse : (buildCfg engine.port 0x401000).Converse :=
  CfgModel.converse_of_starts (by decide +kernel)

theorem atEntry : (buildCfg engine.port 0x401000).blockContaining 0x401000 = some entry := by
  decide +kernel

/-- At the dispatcher `eax` is reported to hold the argument, though its visits were used
up before the new `eax` could reach it. -/
theorem stale : ∃ w, engine.runWorklist 200 walk = some w ∧ ¬ Converged walk w ∧
    engine.resolveAt 200 0x401000 0 0x402000 (some 0) = some (.symbolic "arg0") := by
  have run : (engine.runWorklist 200 walk).any (fun w => (w.inStates 0x402000).any fun s =>
      (w.outStates 0x402002).any fun out => (s.read (.reg (some 0))).isKnown ∧
        out.read (.reg (some 0)) ≠ s.read (.reg (some 0)) ∧
        engine.readTarget 200 walk w dispatch 0x402000 0 = some (.symbolic "arg0")) := by
    decide +kernel
  rcases (Option.any_eq_true _ _).mp run with ⟨w, returned, inside⟩
  rcases (Option.any_eq_true _ _).mp inside with ⟨s, recorded, passed⟩
  rcases (Option.any_eq_true _ _).mp passed with ⟨out, simulated, facts⟩
  simp only [decide_eq_true_eq] at facts
  rcases facts with ⟨known, differs, answer⟩
  refine ⟨w, returned, ?_, ?_⟩
  · intro converged
    have found : walk.cfg.byStart 0x402000 = some dispatch := by decide +kernel
    have pred : next ∈ walk.cfg.predecessors dispatch := by decide +kernel
    have same := converged 0x402000 dispatch found (by decide) s recorded next pred out simulated
    exact differs (same _ known)
  · have atTarget : (buildCfg engine.port 0x401000).blockContaining 0x402000 = some dispatch := by
      decide +kernel
    rw [resolveAt_eq_bind atEntry atTarget, returned]
    exact answer

end Dispatcher

/-- With its default limits the walk answers for a dispatcher from a state that the block
before it no longer supports. -/
theorem visitCap_stale :
    (buildCfg Dispatcher.engine.port 0x401000).Converse ∧
      ∃ w, Dispatcher.engine.runWorklist 200 Dispatcher.walk = some w ∧
        ¬ Converged Dispatcher.walk w ∧
        Dispatcher.engine.resolveAt 200 0x401000 0 0x402000 (some 0) = some (.symbolic "arg0") :=
  ⟨Dispatcher.converse, Dispatcher.stale⟩

/-- There the limit skips the dispatcher where a value would have been lost. -/
theorem converged_iff_skips_settled_dispatcher :
    ¬ ∀ m b, Loop.Passes finished (Dispatcher.engine.visit 200 Dispatcher.walk)
        Dispatcher.walk.start m →
      Dispatcher.engine.Skips Dispatcher.walk m b → Settled Dispatcher.walk m b := by
  rcases Dispatcher.stale with ⟨w, run, stale, answer⟩
  have condition := converged_iff_skips_settled Dispatcher.engine rfl Dispatcher.converse
    Dispatcher.atEntry run answer rfl
  exact fun settled => stale (condition.mpr settled)

end IDAnalysister
