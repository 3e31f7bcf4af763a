import IDAnalysister.Forward.Exactness

/-!
# The instruction limit

`max_instructions` ends the walk or the target block early, and the answer is then
`BUDGET_EXCEEDED`. Up to there the limit decides nothing: under a higher one the walk makes the
same passes, so an answer that was not given up is never another.
-/

namespace IDAnalysister

namespace ForwardSymbolicEngine

/-- The engine with another instruction limit. -/
def withInstructions (self : ForwardSymbolicEngine) (limit : Option Nat) : ForwardSymbolicEngine :=
  { self with maxInstructions := limit }

/-- Whatever exceeds the limit exceeds that of the engine. -/
def Raises (self : ForwardSymbolicEngine) (limit : Option Nat) : Prop :=
  ∀ l ∈ limit, ∃ m ∈ self.maxInstructions, m ≤ l

variable {self : ForwardSymbolicEngine} {limit : Option Nat} {bound funcEa : Nat}

theorem Raises.within (raises : self.Raises limit) {count : Nat}
    (within : exceeds self.maxInstructions count = false) : exceeds limit count = false := by
  cases limit with
  | none => rfl
  | some l =>
      rcases raises l rfl with ⟨m, capped, le⟩
      rw [Option.mem_def] at capped
      simp only [exceeds, capped, Option.any_some, decide_eq_false_iff_not] at within ⊢
      omega

@[simp] theorem withInstructions_port (limit : Option Nat) :
    (self.withInstructions limit).port = self.port := rfl

@[simp] theorem withInstructions_maxInstructions (limit : Option Nat) :
    (self.withInstructions limit).maxInstructions = limit := rfl

@[simp] theorem withInstructions_maxBlockVisits (limit : Option Nat) :
    (self.withInstructions limit).maxBlockVisits = self.maxBlockVisits := rfl

/-- The limit has no part in a step. -/
@[simp] theorem withInstructions_step (limit : Option Nat) (i : Instruction) (s : AbstractState)
    (funcEa : Nat) : (self.withInstructions limit).step i s funcEa = self.step i s funcEa := rfl

@[simp] theorem withInstructions_computedIn (limit : Option Nat) (prev : Option AbstractState)
    (joined : AbstractState) (visits : Nat) :
    (self.withInstructions limit).computedIn prev joined visits =
      self.computedIn prev joined visits := rfl

/-- A simulation is cut short or the same under the higher limit. -/
theorem simulate_cut_or_same (raises : self.Raises limit) {stop ea used : Nat} {s : AbstractState}
    {result : AbstractState × Nat × Bool}
    (simulated : self.simulate funcEa stop bound ea used s = some result) :
    result.2.2 = true ∨
      (self.withInstructions limit).simulate funcEa stop bound ea used s = some result := by
  induction bound generalizing ea used s with
  | zero => exact Or.inr simulated
  | succ bound ih =>
      unfold simulate at simulated ⊢
      rw [withInstructions_port, withInstructions_maxInstructions]
      split at simulated
      · rename_i past
        rw [if_pos past]
        exact Or.inr simulated
      · rename_i more
        rw [if_neg more]
        cases decoded : self.port.decodeAt ea with
        | none =>
            rw [decoded] at simulated
            exact ih simulated
        | some i =>
            rw [decoded] at simulated
            dsimp only at simulated ⊢
            split at simulated
            · cases simulated
              exact Or.inl rfl
            · rename_i within
              rw [raises.within (by simpa using within), if_neg Bool.false_ne_true,
                withInstructions_step]
              exact ih simulated

theorem simulateBlock_cut_or_same (raises : self.Raises limit) {block : BasicBlockInfo}
    {used : Nat} {s : AbstractState} {stopBefore : Option Nat} {result : AbstractState × Nat × Bool}
    (simulated : self.simulateBlock bound funcEa block s used stopBefore = some result) :
    result.2.2 = true ∨
      (self.withInstructions limit).simulateBlock bound funcEa block s used stopBefore =
        some result :=
  simulate_cut_or_same raises simulated

/-- So is a pass of the worklist. -/
theorem visit_cut_or_same (raises : self.Raises limit) {walk : Walk} {w w' : WalkState}
    (visited : self.visit bound walk w = some w') :
    w'.budgetExceeded = true ∨ (self.withInstructions limit).visit bound walk w = some w' := by
  unfold visit at visited ⊢
  rw [withInstructions_maxBlockVisits]
  split at visited
  · exact Or.inr visited
  · split at visited
    · exact Or.inr visited
    · dsimp only at visited ⊢
      split at visited
      · rename_i capped
        rw [if_pos capped]
        exact Or.inr visited
      · rename_i open'
        rw [if_neg open']
        split at visited
        · exact Or.inr visited
        · rw [withInstructions_computedIn]
          split at visited
          · rename_i same
            rw [if_pos same]
            exact Or.inr visited
          · rename_i fresh
            rw [if_neg fresh]
            rcases Option.bind_eq_some_iff.mp visited with ⟨result, simulated, made⟩
            rcases simulateBlock_cut_or_same raises simulated with cut | same
            · cases made
              exact Or.inl cut
            · refine Or.inr ?_
              rw [same]
              exact made

/-- And the whole walk. -/
theorem runWorklist_cut_or_same (raises : self.Raises limit) {walk : Walk} {w : WalkState}
    (run : self.runWorklist bound walk = some w) :
    w.budgetExceeded = true ∨ (self.withInstructions limit).runWorklist bound walk = some w := by
  refine Loop.run_cut_or_same (fun s cut => ?_) (fun s s' => visit_cut_or_same raises) run
  rw [finished, cut, Bool.or_true]

theorem readTarget_cut_or_same (raises : self.Raises limit) {walk : Walk} {w : WalkState}
    {target : BasicBlockInfo} {targetEa reg : Nat} {v : ValueLattice}
    (answer : self.readTarget bound walk w target targetEa reg = some v) :
    (∃ detail, v = .unknown .budgetExceeded detail) ∨
      (self.withInstructions limit).readTarget bound walk w target targetEa reg = some v := by
  unfold readTarget at answer ⊢
  split at answer
  · cases answer
    exact Or.inl ⟨_, rfl⟩
  · rename_i whole
    rw [if_neg whole]
    split at answer
    · exact Or.inr answer
    · rcases Option.bind_eq_some_iff.mp answer with ⟨⟨final, used, exceeded⟩, simulated, made⟩
      rcases simulateBlock_cut_or_same raises simulated with cut | same
      · dsimp only at made cut
        rw [if_pos cut] at made
        cases made
        exact Or.inl ⟨_, rfl⟩
      · refine Or.inr ?_
        rw [same]
        exact made

/-- An answer under some instruction limit is `BUDGET_EXCEEDED` or the answer under every higher
limit, whatever the graph, the locators and the other limits. -/
theorem resolveAt_instruction_limit (self : ForwardSymbolicEngine) {limit : Option Nat}
    (raises : self.Raises limit) {bound funcEa targetEa : Nat} {argIndex : Int}
    {initialReg : Option Nat} {v : ValueLattice}
    (answer : self.resolveAt bound funcEa argIndex targetEa initialReg = some v) :
    (∃ detail, v = .unknown .budgetExceeded detail) ∨
      (self.withInstructions limit).resolveAt bound funcEa argIndex targetEa initialReg =
        some v := by
  unfold resolveAt at answer ⊢
  split at answer
  · exact Or.inr answer
  · rw [withInstructions_port]
    dsimp only at answer ⊢
    split at answer
    · rename_i empty
      rw [if_pos empty]
      exact Or.inr answer
    · rename_i nonempty
      rw [if_neg nonempty]
      split at answer
      · rcases Option.bind_eq_some_iff.mp answer with ⟨w, run, read⟩
        rcases runWorklist_cut_or_same raises run with cut | same
        · rw [readTarget, if_pos cut] at read
          cases read
          exact Or.inl ⟨_, rfl⟩
        · rcases readTarget_cut_or_same raises read with gaveUp | same'
          · exact Or.inl gaveUp
          · refine Or.inr ?_
            rw [same]
            exact same'
      · exact Or.inr answer

/-- The answer behind the loop does not hang on the limit. -/
theorem resolveAt_instruction_limit_countedLoop :
    (CountedLoop.engine.withInstructions none).resolveAt 64 0x401000 0 0x401005 (some 6) =
      some (.concrete (.int 0x404000) .int) := by
  have raises : CountedLoop.engine.Raises none := by
    intro l never
    cases never
  have answer : CountedLoop.engine.resolveAt 64 0x401000 0 0x401005 (some 6) =
      some (.concrete (.int 0x404000) .int) := by decide
  rcases resolveAt_instruction_limit CountedLoop.engine raises answer with ⟨detail, gaveUp⟩ | same
  · cases gaveUp
  · exact same

end ForwardSymbolicEngine

end IDAnalysister
