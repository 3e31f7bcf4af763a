import IDAnalysister.Forward.VisitCap

/-!
# A walk of a function whose entry block is a loop header

The state joined at the entry block is the seed, whatever leads back to it. The answers
of such a walk hold along every path exactly when no path back to the entry changes the
seeded register.
-/

namespace IDAnalysister

open ForwardSymbolicEngine ConsistentCfg

namespace ConsistentCfg

variable {self : ForwardSymbolicEngine} {funcEa : Nat} {G : ConsistentCfg self.port funcEa}
variable {argIndex : Int} {reg : Nat} {b : BasicBlockInfo} {targetEa : Nat}

/-- The seed says nothing but what the register holds. -/
theorem seed_le_iff {s : AbstractState} :
    seed reg argIndex ≤ s ↔ s.getRegister (some reg) = .symbolic ("arg" ++ toString argIndex) := by
  have value : (seed reg argIndex).read (.reg (some reg)) =
      .symbolic ("arg" ++ toString argIndex) := by
    rw [seed, AbstractState.read_setRegister, if_pos rfl]
  constructor
  · intro le
    have here := le (.reg (some reg))
    rw [value] at here
    exact ValueLattice.symbolic_le.mp here
  · intro holds l
    by_cases here : l = .reg (some reg)
    · subst here
      rw [value]
      exact holds.symm.le
    · rw [seed, AbstractState.read_setRegister, if_neg here, AbstractState.read_empty]
      exact ValueLattice.unknown_le _ _ _

end ConsistentCfg

/-- The known answers of a walk hold along every path to their target, also along those
that come back to the entry block, if and only if along every path back to the entry block
the seeded register still holds the argument there. -/
theorem answers_hold_iff_back (self : ForwardSymbolicEngine)
    (builtin : self.registry = defaultRegistry) {funcEa : Nat}
    (G : ConsistentCfg self.port funcEa) (argIndex : Int) (reg : Nat) {bound : Nat}
    {w : WalkState} (run : self.runWorklist bound (G.walk argIndex reg) = some w)
    (ok : w.budgetExceeded = false) (first : exceeds self.maxBlockVisits 1 = false)
    (settled : ∀ m b, Loop.Passes finished (self.visit bound (G.walk argIndex reg))
      (G.walk argIndex reg).start m → self.Skips (G.walk argIndex reg) m b →
      Settled (G.walk argIndex reg) m b) :
    (∀ targetEa v, self.resolveAt bound funcEa argIndex targetEa (some reg) = some v →
      v.isKnown → ∀ π, G.PathTo targetEa π →
        (self.runSteps funcEa π (seed reg argIndex)).getRegister (some reg) = v) ↔
    ∀ π, G.Path G.entry π → (self.runSteps funcEa π (seed reg argIndex)).getRegister (some reg) =
      .symbolic ("arg" ++ toString argIndex) := by
  rcases final_of_skips_settled builtin (proper argIndex reg) G.converse_cfg run ok first settled
    with ⟨consistent, final⟩
  constructor
  · intro holds π path
    -- the start of the function is itself a target, with the seed as its answer
    have start := G.entry_startEa
    have positive := G.nonempty G.entry G.entry_mem
    have entered : G.Reachable G.entry := ⟨[], .entry⟩
    rcases answer_cases run ok consistent final G.entry_mem (Nat.le_refl _) positive with
      ⟨v, answer, value⟩
    have nothing := (G.tiled _ G.entry_mem).before_eq_nil (Nat.le_refl _)
    have known : v = .symbolic ("arg" ++ toString argIndex) := by
      rcases value with ⟨_, value⟩ | ⟨unreachable, _⟩
      · rw [value, nothing]
        have seeded : recorded w G.entry = seed reg argIndex :=
          final.descending.entry _ (inStates_eq final entered)
        rw [seeded]
        exact seed_le_iff.mp (le_refl (seed reg argIndex))
      · exact (unreachable entered).elim
    subst known
    have target := PathTo.intro path (Nat.le_refl _) positive
    rw [nothing, List.append_nil] at target
    exact holds _ _ answer rfl π target
  · intro back targetEa v answer known π path
    rcases path.block with ⟨b, hb, lo, hi⟩
    rcases answer_cases run ok consistent final hb lo hi with ⟨u, again, value⟩
    have same := Option.some.inj (answer.symm.trans again)
    subst same
    rcases value with ⟨reachable, rfl⟩ | ⟨_, unknown⟩
    · exact answer_sound consistent final (fun π entered => seed_le_iff.mpr (back π entered)) hb lo
        hi reachable known path
    · rw [unknown] at known
      cases known

/-! ## The loop that writes the seeded register -/

namespace EntryLoop

/-- The engine with its default limits. -/
def engine : ForwardSymbolicEngine := ⟨port, defaultRegistry, some 4000, some 64, 3⟩

theorem once : graph.Path graph.entry [setEax, back] := by
  have again : graph.entry ∈ graph.cfg.successors graph.entry := by decide
  exact .step .entry again

theorem walks : ∃ w, engine.runWorklist 64 (graph.walk 0 0) = some w ∧ w.budgetExceeded = false ∧
    engine.WithinVisits w := by
  have run : (engine.runWorklist 64 (graph.walk 0 0)).any (fun w => w.budgetExceeded = false ∧
      ∀ b ∈ graph.cfg.blocks, exceeds engine.maxBlockVisits (w.visitCounts b.startEa) = false) := by
    decide
  rcases (Option.any_eq_true _ _).mp run with ⟨w, returned, fits⟩
  simp only [decide_eq_true_eq] at fits
  exact ⟨w, returned, fits.1, withinVisits_of_run returned fits.2⟩

end EntryLoop

/-- At the start of the function `eax` is reported to hold the argument; along the path that
has gone round the loop once it is 5. -/
theorem entryLoop_forward_wrong :
    EntryLoop.graph.cfg.predecessors EntryLoop.graph.entry ≠ [] ∧
      EntryLoop.engine.resolveAt 64 0x401000 0 0x401000 (some 0) = some (.symbolic "arg0") ∧
      EntryLoop.graph.PathTo 0x401000 [EntryLoop.setEax, EntryLoop.back] ∧
      (EntryLoop.engine.runSteps 0x401000 [EntryLoop.setEax, EntryLoop.back]
        (seed 0 0)).getRegister (some 0) = .concrete (.int 5) .int :=
  ⟨by decide, by decide, .intro EntryLoop.once (by decide) (by decide), by decide⟩

/-- As the path round that loop does not keep the argument, not every answer holds. -/
theorem answers_hold_iff_back_entryLoop :
    ¬ ∀ targetEa v, EntryLoop.engine.resolveAt 64 0x401000 0 targetEa (some 0) = some v →
      v.isKnown → ∀ π, EntryLoop.graph.PathTo targetEa π →
        (EntryLoop.engine.runSteps 0x401000 π (seed 0 0)).getRegister (some 0) = v := by
  rcases EntryLoop.walks with ⟨w, run, ok, visits⟩
  have condition := answers_hold_iff_back EntryLoop.engine rfl EntryLoop.graph 0 0 run ok rfl
    (settled_of_withinVisits run ok visits)
  intro holds
  have kept := condition.mp holds _ EntryLoop.once
  exact absurd kept (by decide)

end IDAnalysister
