import IDAnalysister.Adapters.FakePort
import IDAnalysister.Backward.Accounting
import IDAnalysister.Backward.Refusal
import IDAnalysister.Backward.Termination

/-!
# What the resolution budget guarantees

A whole query returns and is charged for everything it does, and an answer that is not
`unknown` was never cut short, so it stays the same under a larger budget.
-/

namespace IDAnalysister

open Effect Prog

/-! ## Public queries -/

/-- A call of the public API. -/
inductive PublicQuery
  | register (reg beforeEa : Nat)
  | memory (baseReg : Option Nat) (disp : Int) (beforeEa size : Nat)
  | atInstruction (ea dest : Nat)

namespace BackwardResolver

/-- The program of a public query under a recursion bound. -/
def program (self : BackwardResolver) (bound : Nat) : PublicQuery → Query ValueLattice
  | .register reg beforeEa => self.registerQuery bound reg beforeEa
  | .memory baseReg disp beforeEa size => self.memoryQuery bound baseReg disp beforeEa size
  | .atInstruction ea dest => self.instructionQuery bound ea dest

def answer (self : BackwardResolver) : PublicQuery → Option ValueLattice
  | .register reg beforeEa => self.resolveRegister reg beforeEa
  | .memory baseReg disp beforeEa size => self.resolveMemory baseReg disp beforeEa size
  | .atInstruction ea dest => self.resolveAtInstruction ea dest

end BackwardResolver

section PublicQuery

variable {self : BackwardResolver}

theorem answer_eq (q : PublicQuery) :
    self.answer q = (self.execute (self.program self.fuel q)).map (·.1) := by
  cases q <;> rfl

theorem program_solvent {w : Event Resolver → Int} (fair : Fair w) (bound : Nat)
    (q : PublicQuery) : Solvent w 0 (self.program bound q) := by
  have nested := callbacks_solvent self fair bound bound
  cases q with
  | register reg ea => exact nested.resolveRegister _ _
  | memory base disp ea size => exact nested.resolveMemory _ _ _ _
  | atInstruction ea dest => exact resolveAtInstructionImpl_solvent fair nested ea dest

theorem program_settles (self : BackwardResolver) (port : IdaPort) (bound : Nat)
    {steps blocks : Nat} (enough : steps < bound) (fits : blocks < bound) (q : PublicQuery) :
    Settles port steps blocks (self.program bound q) := by
  have nested := callbacks_settle self port bound (Nat.le_refl bound)
  cases q with
  | register reg ea => exact nested.resolveRegister steps enough blocks fits _ _
  | memory base disp ea size => exact nested.resolveMemory steps enough blocks fits _ _ _ _
  | atInstruction ea dest =>
      exact resolveAtInstructionImpl_settles (nested.mono enough.le) fits ea dest

theorem program_approx (self : BackwardResolver) {bound bound' : Nat} (le : bound ≤ bound')
    (q : PublicQuery) : Approx (self.program bound q) (self.program bound' q) := by
  have nested := callbacks_approx self le le
  cases q with
  | register reg ea => exact nested.resolveRegister _ _
  | memory base disp ea size => exact nested.resolveMemory _ _ _ _
  | atInstruction ea dest => exact resolveAtInstructionImpl_approx nested ea dest

/-- The handler grants no more steps and blocks than were left. -/
theorem granted_le_left {port : IdaPort} {b b' : ResolutionBudget} {t : List (Event Resolver)}
    (h : Answers (handler port) b t b') :
    t.countP Event.stepGranted ≤ b.stepsLeft ∧ t.countP Event.blockGranted ≤ b.blocksLeft := by
  induction h with
  | nil b => simp
  | @cons b b₁ b₂ o r t answered _ ih =>
      simp only [List.countP_cons, ResolutionBudget.stepsLeft, ResolutionBudget.blocksLeft] at ih ⊢
      cases o with
      | step =>
          simp only [handler, ResolutionBudget.step, Prod.mk.injEq] at answered
          obtain ⟨rfl, rfl⟩ := answered
          simp only [Event.stepGranted, Event.blockGranted, decide_eq_true_eq, Bool.false_eq_true,
            if_false] at ih ⊢
          split <;> omega
      | stepBlock =>
          simp only [handler, ResolutionBudget.stepBlock, Prod.mk.injEq] at answered
          obtain ⟨rfl, rfl⟩ := answered
          simp only [Event.stepGranted, Event.blockGranted, decide_eq_true_eq, Bool.false_eq_true,
            if_false] at ih ⊢
          split <;> omega
      | get ea =>
          cases answered
          simpa [Event.stepGranted, Event.blockGranted] using ih
      | funcEaFor ea =>
          cases answered
          simpa [Event.stepGranted, Event.blockGranted] using ih
      | cfgFor funcEa =>
          cases answered
          simpa [Event.stepGranted, Event.blockGranted] using ih
      | mark m =>
          cases answered
          simpa [Event.stepGranted, Event.blockGranted] using ih

theorem count_le_of_fair {earns costs : Event Resolver → Bool} (fair : Fair (tariff earns costs))
    {bound : Nat} {q : PublicQuery} {t : List (Event Resolver)} {v : ValueLattice}
    (run : Exec (self.program bound q) t v) : t.countP costs ≤ t.countP earns := by
  have solvent := program_solvent fair bound q t v run
  rw [balance_tariff] at solvent
  omega

theorem fair_fetch : Fair (tariff Event.stepGranted Event.fetch) where
  step ok := by cases ok <;> decide
  fetch ea r := by simp [tariff, Event.stepGranted, Event.fetch]
  extract ea r := by simp [tariff, Event.stepGranted, Event.fetch]
  stepBlock ok := by simp [tariff, Event.stepGranted, Event.fetch]
  expand := by decide
  funcEaFor ea r := by simp [tariff, Event.stepGranted, Event.fetch]
  cfgFor ea r := by simp [tariff, Event.stepGranted, Event.fetch]

theorem fair_extraction : Fair (tariff Event.stepGranted Event.extraction) where
  step ok := by cases ok <;> decide
  fetch ea r := by simp [tariff, Event.stepGranted, Event.extraction]
  extract ea r := by simp [tariff, Event.stepGranted, Event.extraction]
  stepBlock ok := by simp [tariff, Event.stepGranted, Event.extraction]
  expand := by decide
  funcEaFor ea r := by simp [tariff, Event.stepGranted, Event.extraction]
  cfgFor ea r := by simp [tariff, Event.stepGranted, Event.extraction]

theorem fair_expansion : Fair (tariff Event.blockGranted Event.expansion) where
  step ok := by simp [tariff, Event.blockGranted, Event.expansion]
  fetch ea r := by simp [tariff, Event.blockGranted, Event.expansion]
  extract ea r := by simp [tariff, Event.blockGranted, Event.expansion]
  stepBlock ok := by cases ok <;> decide
  expand := by decide
  funcEaFor ea r := by simp [tariff, Event.blockGranted, Event.expansion]
  cfgFor ea r := by simp [tariff, Event.blockGranted, Event.expansion]

/-- The resolution budget bounds a whole query. It returns, the answer and the trace
do not depend on the recursion bound, and over the whole trace the fetches and the
extractions are at most `max_steps` and the expansions at most `max_blocks`. -/
theorem query_bounded (self : BackwardResolver) (q : PublicQuery) :
    ∃ value budget trace,
      (∀ bound, self.fuel ≤ bound →
        self.execute (self.program bound q) = some (value, budget, trace)) ∧
      trace.countP Event.fetch ≤ self.maxSteps ∧
      trace.countP Event.extraction ≤ self.maxSteps ∧
      trace.countP Event.expansion ≤ self.maxBlocks := by
  have left : self.freshBudget.Within self.maxSteps self.maxBlocks := by
    constructor <;> simp [ResolutionBudget.stepsLeft, ResolutionBudget.blocksLeft,
      BackwardResolver.freshBudget]
  have fuel : self.fuel = self.maxSteps + self.maxBlocks + 2 := rfl
  obtain ⟨value, budget, trace, ran, -⟩ :=
    program_settles self self.port self.fuel (by omega) (by omega) q _ left
  obtain ⟨exec, answered⟩ := run_eq_some.mp ran
  obtain ⟨steps, blocks⟩ := granted_le_left answered
  refine ⟨value, budget, trace, fun bound le => (program_approx self le q).run ran, ?_, ?_, ?_⟩
  · exact (count_le_of_fair fair_fetch exec).trans steps
  · exact (count_le_of_fair fair_extraction exec).trans steps
  · exact (count_le_of_fair fair_expansion exec).trans blocks

/-! ## Raising the budget -/

theorem program_surfaces (strict : ∀ l ∈ self.registry.all, l.Strict) (bound : Nat)
    (q : PublicQuery) : Surfaces Event.Refused Undetermined (self.program bound q) := by
  have nested := callbacks_candid strict bound bound
  cases q with
  | register reg ea => exact nested.resolveRegister _ _
  | memory base disp ea size => exact nested.resolveMemory _ _ _ _
  | atInstruction ea dest => exact resolveAtInstructionImpl_surfaces strict nested ea dest

/-- A budget that has spent as much and allows at least as much. -/
structure ResolutionBudget.Covers (c b : ResolutionBudget) : Prop where
  stepsUsed : c.stepsUsed = b.stepsUsed
  blocksUsed : c.blocksUsed = b.blocksUsed
  maxSteps : b.maxSteps ≤ c.maxSteps
  maxBlocks : b.maxBlocks ≤ c.maxBlocks

/-- A trace without refusals is answered alike by a larger budget. -/
theorem answers_of_covers {port : IdaPort} {b b' c : ResolutionBudget}
    {t : List (Event Resolver)} (answered : Answers (handler port) b t b')
    (granted : ∀ e ∈ t, ¬ Event.Refused e) (covers : c.Covers b) :
    ∃ c', Answers (handler port) c t c' := by
  induction answered generalizing c with
  | nil b => exact ⟨c, .nil c⟩
  | @cons b b₁ b₂ o r t first _ ih =>
      have here := granted _ List.mem_cons_self
      have later : ∀ e ∈ t, ¬ Event.Refused e := fun e member =>
        granted e (List.mem_cons_of_mem _ member)
      obtain ⟨usedSteps, usedBlocks, moreSteps, moreBlocks⟩ := covers
      cases o with
      | step =>
          simp only [handler, ResolutionBudget.step, Prod.mk.injEq] at first
          obtain ⟨rfl, rfl⟩ := first
          have fits : b.stepsUsed + 1 ≤ b.maxSteps := by simpa [Event.Refused] using here
          have fits' : c.stepsUsed + 1 ≤ c.maxSteps := by omega
          obtain ⟨c', rest⟩ := ih later (c := { c with stepsUsed := c.stepsUsed + 1 })
            ⟨by simp [usedSteps], usedBlocks, moreSteps, moreBlocks⟩
          exact ⟨c', .cons (by simp [handler, ResolutionBudget.step, fits, fits']) rest⟩
      | stepBlock =>
          simp only [handler, ResolutionBudget.stepBlock, Prod.mk.injEq] at first
          obtain ⟨rfl, rfl⟩ := first
          have fits : b.blocksUsed + 1 ≤ b.maxBlocks := by simpa [Event.Refused] using here
          have fits' : c.blocksUsed + 1 ≤ c.maxBlocks := by omega
          obtain ⟨c', rest⟩ := ih later (c := { c with blocksUsed := c.blocksUsed + 1 })
            ⟨usedSteps, by simp [usedBlocks], moreSteps, moreBlocks⟩
          exact ⟨c', .cons (by simp [handler, ResolutionBudget.stepBlock, fits, fits']) rest⟩
      | get ea =>
          cases first
          obtain ⟨c', rest⟩ := ih later ⟨usedSteps, usedBlocks, moreSteps, moreBlocks⟩
          exact ⟨c', .cons rfl rest⟩
      | funcEaFor ea =>
          cases first
          obtain ⟨c', rest⟩ := ih later ⟨usedSteps, usedBlocks, moreSteps, moreBlocks⟩
          exact ⟨c', .cons rfl rest⟩
      | cfgFor funcEa =>
          cases first
          obtain ⟨c', rest⟩ := ih later ⟨usedSteps, usedBlocks, moreSteps, moreBlocks⟩
          exact ⟨c', .cons rfl rest⟩
      | mark m =>
          cases first
          obtain ⟨c', rest⟩ := ih later ⟨usedSteps, usedBlocks, moreSteps, moreBlocks⟩
          exact ⟨c', .cons rfl rest⟩

/-- The programs of a resolver do not depend on its limits. -/
theorem callbacks_with_limits (self : BackwardResolver) (maxSteps maxBlocks loops depth : Nat) :
    ({ self with maxSteps, maxBlocks } : BackwardResolver).callbacks loops depth =
      self.callbacks loops depth := by
  induction depth with
  | zero => rfl
  | succ depth ih =>
      simp only [BackwardResolver.callbacks, ih]
      rfl

theorem program_with_limits (self : BackwardResolver) (maxSteps maxBlocks bound : Nat)
    (q : PublicQuery) :
    ({ self with maxSteps, maxBlocks } : BackwardResolver).program bound q =
      self.program bound q := by
  cases q with
  | register reg ea =>
      simp only [BackwardResolver.program, BackwardResolver.registerQuery, callbacks_with_limits]
  | memory base disp ea size =>
      simp only [BackwardResolver.program, BackwardResolver.memoryQuery, callbacks_with_limits]
  | atInstruction ea dest =>
      simp only [BackwardResolver.program, BackwardResolver.instructionQuery,
        callbacks_with_limits]
      rfl

/-- The same resolver with other limits. -/
def BackwardResolver.withLimits (self : BackwardResolver) (maxSteps maxBlocks : Nat) :
    BackwardResolver :=
  { self with maxSteps, maxBlocks }

/-- Raising the limits never changes a known answer of strict locators. -/
theorem answer_withLimits (strict : ∀ l ∈ self.registry.all, l.Strict) {q : PublicQuery}
    {steps blocks : Nat} (moreSteps : self.maxSteps ≤ steps) (moreBlocks : self.maxBlocks ≤ blocks)
    {v : ValueLattice} (known : v.isKnown) (answered : self.answer q = some v) :
    (self.withLimits steps blocks).answer q = some v := by
  rw [answer_eq, Option.map_eq_some_iff] at answered
  obtain ⟨⟨_, budget, trace⟩, ran, rfl⟩ := answered
  obtain ⟨exec, answers⟩ := run_eq_some.mp ran
  -- a known answer was never refused anything
  have granted : ∀ e ∈ trace, ¬ Event.Refused e := by
    intro e member refused
    have lost := program_surfaces strict _ q trace _ exec ⟨e, member, refused⟩
    rw [Undetermined, known] at lost
    cases lost
  obtain ⟨budget', answers'⟩ := answers_of_covers answers granted
    (c := (self.withLimits steps blocks).freshBudget) ⟨rfl, rfl, moreSteps, moreBlocks⟩
  rw [← program_with_limits _ steps blocks] at exec
  have larger := (program_approx (self.withLimits steps blocks)
    (show self.fuel ≤ steps + blocks + 2 from by
      simp only [BackwardResolver.fuel]
      omega) q).exec exec
  rw [answer_eq, Option.map_eq_some_iff]
  exact ⟨(_, budget', trace), run_eq_some.mpr ⟨larger, answers'⟩, rfl⟩

/-- Raising the limits never changes a known answer of the built-in locators. -/
theorem answer_mono_budget (port : IdaPort) (q : PublicQuery) {steps steps' blocks blocks' : Nat}
    (moreSteps : steps ≤ steps') (moreBlocks : blocks ≤ blocks') {v : ValueLattice}
    (known : v.isKnown)
    (answered : (BackwardResolver.mk port defaultRegistry steps blocks).answer q = some v) :
    (BackwardResolver.mk port defaultRegistry steps' blocks').answer q = some v :=
  answer_withLimits builtins_strict moreSteps moreBlocks known answered

end PublicQuery

/-- Eight steps and two blocks already give the answer of the default limits. -/
theorem answer_mono_budget_countedLoop :
    (BackwardResolver.mk CountedLoop.port defaultRegistry 200 64).answer (.register 6 0x401005) =
      some (.concrete (.int 0x404000) .int) :=
  answer_mono_budget CountedLoop.port (.register 6 0x401005) (show 8 ≤ 200 by decide)
    (show 2 ≤ 64 by decide) rfl (by decide)

end IDAnalysister
