import IDAnalysister.Forward.Soundness

/-!
# The engines on any function

Each engine is right about every execution that reaches the target, and where the forward
engine knows something there is one to be right about: the target is reachable, and every
instruction on the way can be executed in whatever state it is met. The two answers are then
about the same word. The argument may be any word, which leaves the resolver nothing concrete
to say where the forward engine reports it.
-/

namespace IDAnalysister

open Effect Prog Transfer Trace AbstractState ForwardSymbolicEngine

variable {port : IdaPort} {funcEa W : Nat} {G : ConsistentCfg port funcEa}

/-- An execution of the forward engine's steps is one of the resolver's transfers. -/
theorem forms_of_along {π : List Instruction} {s s' : State Place W}
    (execution : Along (TrackedStep port funcEa W) π s s') :
    ∃ ops, List.Forall₂ (Form port funcEa W) π ops ∧ Run ops s s' := by
  induction execution with
  | nil s => exact ⟨[], .nil, rfl⟩
  | @cons i π s m s' step _ ih =>
      rcases step.form with ⟨op, form, moved⟩
      rcases ih with ⟨ops, forms, run⟩
      exact ⟨op :: ops, .cons form forms, m, moved, run⟩

/-- Every path to a target has an execution from every state. -/
theorem exists_execution {ea : Nat} {π : List Instruction}
    (tracked : ∀ b ∈ G.cfg.blocks, ∀ i ∈ G.tile b, Tracked port funcEa W i) (path : G.PathTo ea π)
    (s : State Place W) : ∃ s', Along (TrackedStep port funcEa W) π s s' := by
  refine exists_along (fun i member m => ?_) s
  rcases path.mem_tile member with ⟨c, hc, inTile⟩
  exact (tracked c hc i inTile).step m

/-- A known answer is about a target that some path reaches. -/
theorem exists_path_of_known (self : ForwardSymbolicEngine) {G : ConsistentCfg self.port funcEa}
    (builtin : self.registry = defaultRegistry) {argIndex : Int} {reg bound targetEa : Nat}
    {w : WalkState} (run : self.runWorklist bound (G.walk argIndex reg) = some w)
    (visits : self.WithinVisits w) {v : ValueLattice}
    (answer : self.resolveAt bound funcEa argIndex targetEa (some reg) = some v)
    (known : v.isKnown) : ∃ π, G.PathTo targetEa π := by
  cases atTarget : (buildCfg self.port funcEa).blockContaining targetEa with
  | none =>
      have atEntry := G.blockContaining_entry
      rw [resolveAt] at answer
      dsimp only at answer
      rw [isEmpty_of_blockContaining atEntry, if_neg Bool.false_ne_true, atEntry,
        atTarget] at answer
      obtain rfl := Option.some.inj answer
      cases known
  | some b =>
      have hb : b ∈ G.cfg.blocks := List.mem_of_find?_eq_some atTarget
      have inside := List.find?_some atTarget
      simp only [decide_eq_true_eq] at inside
      have ok := not_exceeded_of_known G.blockContaining_entry run answer known
      rcases final_of_run builtin (ConsistentCfg.proper argIndex reg) G.converse_cfg run ok visits
        with ⟨consistent, final, -⟩
      rcases ConsistentCfg.answer_cases run ok consistent final hb inside.1 inside.2 with
        ⟨u, again, ⟨⟨π, path⟩, -⟩ | ⟨-, unknown⟩⟩
      · exact ⟨_, .intro path inside.1 inside.2⟩
      · obtain rfl := Option.some.inj (answer.symm.trans again)
        rw [unknown] at known
        cases known

/-- What the resolver answers holds on every execution of the tracked steps. -/
theorem resolver_sound (self : BackwardResolver) (builtin : self.registry = defaultRegistry)
    (positive : 0 < W) (le : W ≤ 64) {G : ConsistentCfg self.port funcEa}
    (source : G.cfg.predecessors G.entry = []) {r ea : Nat} (whole : WholeReg self.port W r)
    {y : ValueLattice} (answer : self.resolveRegister r ea = some y) {π : List Instruction}
    (path : G.PathTo ea π) {s s' : State Place W}
    (execution : Along (TrackedStep self.port funcEa W) π s s') : Holds y (s' (.reg r)) := by
  rcases Option.map_eq_some_iff.mp answer with ⟨⟨v, budget, trace⟩, ran, rfl⟩
  rcases run_eq_some.mp ran with ⟨exec, answered⟩
  rcases forms_of_along execution with ⟨ops, forms, moved⟩
  have sound := callbacks_sound builtin positive le G self.fuel self.fuel
  exact sound (.reg r) whole path forms (Or.inl source) moved (honest_of_answers answered) exec

/-- The two engines never contradict each other, whatever loops and branches the function has:
two concrete answers are the same value, and where the forward engine reports the argument the
resolver has no concrete answer. -/
theorem engines_agree_on_graph (G : ConsistentCfg port funcEa) (positive : 0 < W) (le : W ≤ 64)
    (source : G.cfg.predecessors G.entry = [])
    (tracked : ∀ b ∈ G.cfg.blocks, ∀ i ∈ G.tile b, Tracked port funcEa W i) {r : Nat}
    (whole : WholeReg port W r) (maxInstructions maxBlockVisits : Option Nat)
    (loopWidenAfter maxSteps maxBlocks bound targetEa : Nat) (argIndex : Int) {w : WalkState}
    {x y : ValueLattice}
    (run : (ForwardSymbolicEngine.mk port defaultRegistry maxInstructions maxBlockVisits
      loopWidenAfter).runWorklist bound (G.walk argIndex r) = some w)
    (visits : (ForwardSymbolicEngine.mk port defaultRegistry maxInstructions maxBlockVisits
      loopWidenAfter).WithinVisits w)
    (forward : (ForwardSymbolicEngine.mk port defaultRegistry maxInstructions maxBlockVisits
      loopWidenAfter).resolveAt bound funcEa argIndex targetEa (some r) = some x)
    (backward : (BackwardResolver.mk port defaultRegistry maxSteps maxBlocks).resolveRegister r
      targetEa = some y) :
    (∀ d k d' k', x = .concrete d k → y = .concrete d' k' → d = d') ∧
      (x = .symbolic ("arg" ++ toString argIndex) → ∀ d k, y ≠ .concrete d k) := by
  let engine : ForwardSymbolicEngine :=
    ⟨port, defaultRegistry, maxInstructions, maxBlockVisits, loopWidenAfter⟩
  have sound (known : x.isKnown) (m : State Place W) : ∃ word : BitVec W,
      StandsFor argIndex (m (.reg r)) word x ∧ Holds y word := by
    rcases exists_path_of_known engine rfl run visits forward known with ⟨π, path⟩
    rcases exists_execution tracked path m with ⟨m', execution⟩
    have left := standsFor_of_answer engine rfl positive le G source whole run visits forward path
      execution
    have right := resolver_sound ⟨port, defaultRegistry, maxSteps, maxBlocks⟩ rfl positive le source
      whole backward path execution
    exact ⟨_, left, right⟩
  constructor
  · rintro d k d' k' rfl rfl
    rcases sound rfl fun _ => 0 with ⟨word, left, right⟩
    exact (left.concrete d k rfl).trans (right d' k' rfl).symm
  · rintro rfl d k rfl
    -- the argument may be any word, and the one answer would have to be all of them
    have every (word : BitVec W) : d = .int word.toNat := by
      rcases sound rfl fun _ => word with ⟨held, left, right⟩
      rw [right d k rfl, left.argument rfl]
    have same : (0#W).toNat = (1#W).toNat :=
      Int.ofNat.inj (Datum.int.inj ((every 0#W).symm.trans (every 1#W)))
    rw [BitVec.toNat_ofNat, BitVec.toNat_ofNat, Nat.zero_mod,
      Nat.mod_eq_of_lt (Nat.one_lt_two_pow positive.ne')] at same
    cases same

theorem CountedLoop.tracked : ∀ b ∈ CountedLoop.graph.cfg.blocks,
    ∀ i ∈ CountedLoop.graph.tile b, Tracked CountedLoop.port 0x401000 32 i := by
  rcases (CountedLoop.along fun _ => 0).cons_inv with ⟨m, first, rest⟩
  rcases rest.cons_inv with ⟨m', second, -⟩
  intro b _ i member
  change i ∈ (if b.startEa = 0x401000 then [CountedLoop.setEsi] else [CountedLoop.back]) at member
  split at member
  · obtain rfl := List.mem_singleton.mp member
    exact ⟨_, m, first⟩
  · obtain rfl := List.mem_singleton.mp member
    exact ⟨m, m', second⟩

/-- Behind the loop both engines find the constant in `esi`. For `ecx` the forward engine reports
the argument, and the resolver finds no definition. -/
theorem engines_agree_on_graph_countedLoop :
    Datum.int 0x404000 = .int 0x404000 ∧
      ∀ d k, ValueLattice.unknown' .noDefinitionFound ≠ .concrete d k := by
  rcases CountedLoop.walks_esi with ⟨w, run, visits⟩
  rcases CountedLoop.walks with ⟨w', run', -, visits'⟩
  have esi := engines_agree_on_graph CountedLoop.graph (by decide) (by decide) (by decide)
    CountedLoop.tracked (FakeIdaPort.wholeReg rfl (by decide)) (some 4000) (some 64) 3 200 64 64
    0x401005 0 run visits (show _ = some (.concrete (.int 0x404000) .int) by decide)
    (show _ = some (.concrete (.int 0x404000) .int) by decide)
  have ecx := engines_agree_on_graph CountedLoop.graph (by decide) (by decide) (by decide)
    CountedLoop.tracked (FakeIdaPort.wholeReg rfl (by decide)) (some 4000) (some 64) 3 200 64 64
    0x401005 0 run' visits' (show _ = some (.symbolic "arg0") by decide)
    (show _ = some (.unknown' .noDefinitionFound) by decide)
  exact ⟨esi.1 _ _ _ _ rfl rfl, ecx.2 rfl⟩

end IDAnalysister
