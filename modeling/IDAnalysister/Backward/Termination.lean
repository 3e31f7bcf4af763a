import IDAnalysister.Backward.Engine

/-!
# The recursion bound of a query

A query that starts with less budget than its bound returns, because every nested
query spends a step before it calls back and every expansion spends a block. A larger
bound changes nothing.
-/

namespace IDAnalysister

open Effect Prog

/-! ## A query returns before its bound -/

namespace ResolutionBudget

def stepsLeft (b : ResolutionBudget) : Nat := b.maxSteps - b.stepsUsed

def blocksLeft (b : ResolutionBudget) : Nat := b.maxBlocks - b.blocksUsed

/-- At most so much of the budget is left. -/
structure Within (steps blocks : Nat) (b : ResolutionBudget) : Prop where
  steps : b.stepsLeft ≤ steps
  blocks : b.blocksLeft ≤ blocks

end ResolutionBudget

/-- Started with at most so much budget left, `p` returns. -/
def Settles (port : IdaPort) (steps blocks : Nat) {α : Type} (p : Query α) : Prop :=
  ∀ b : ResolutionBudget, b.Within steps blocks →
    Halts (handler port) p b (·.Within steps blocks)

section Settles

variable {port : IdaPort} {steps blocks : Nat} {α β : Type}

/-- A value needs no passes. -/
theorem Settles.pure (a : α) : Settles port steps blocks (.pure a) :=
  fun _ left => Halts.pure left

/-- A program settles when both of its parts do. -/
theorem Settles.bind {p : Query α} {f : α → Query β} (first : Settles port steps blocks p)
    (second : ∀ a, Settles port steps blocks (f a)) : Settles port steps blocks (p.bind f) :=
  fun b left => Halts.bind (first b left) fun a b' left' => second a b' left'

/-- A traversal settles when each of its members does. -/
theorem Settles.traverse {f : α → Query β} {xs : List α}
    (each : ∀ x ∈ xs, Settles port steps blocks (f x)) :
    Settles port steps blocks (Prog.traverse f xs) :=
  fun _ left => Halts.traverse left fun x member b' left' => each x member b' left'

/-- A granted step leaves one step less. -/
theorem Settles.step {f : Bool → Query α} (refused : Settles port steps blocks (f false))
    (granted : ∀ fewer, steps = fewer + 1 → Settles port fewer blocks (f true)) :
    Settles port steps blocks (.call .step f) := by
  intro b given
  rcases given with ⟨stepsLe, blocksLe⟩
  refine Halts.call ?_
  by_cases fits : b.stepsUsed + 1 ≤ b.maxSteps
  · unfold ResolutionBudget.stepsLeft at stepsLe
    obtain ⟨fewer, rfl⟩ : ∃ fewer, steps = fewer + 1 := ⟨steps - 1, by omega⟩
    have halts := granted fewer rfl { b with stepsUsed := b.stepsUsed + 1 }
      ⟨by simp only [ResolutionBudget.stepsLeft]; omega, blocksLe⟩
    simp only [handler, ResolutionBudget.step, fits, decide_true]
    exact halts.mono fun b' left => ⟨left.steps.trans (Nat.le_succ _), left.blocks⟩
  · simp only [handler, ResolutionBudget.step, fits, decide_false]
    refine refused { b with stepsUsed := b.stepsUsed + 1 } ⟨?_, blocksLe⟩
    simp only [ResolutionBudget.stepsLeft] at stepsLe ⊢
    omega

/-- A granted block leaves one block less. -/
theorem Settles.stepBlock {f : Bool → Query α} (refused : Settles port steps blocks (f false))
    (granted : ∀ fewer, blocks = fewer + 1 → Settles port steps fewer (f true)) :
    Settles port steps blocks (.call .stepBlock f) := by
  intro b given
  rcases given with ⟨stepsLe, blocksLe⟩
  refine Halts.call ?_
  by_cases fits : b.blocksUsed + 1 ≤ b.maxBlocks
  · unfold ResolutionBudget.blocksLeft at blocksLe
    obtain ⟨fewer, rfl⟩ : ∃ fewer, blocks = fewer + 1 := ⟨blocks - 1, by omega⟩
    have halts := granted fewer rfl { b with blocksUsed := b.blocksUsed + 1 }
      ⟨stepsLe, by simp only [ResolutionBudget.blocksLeft]; omega⟩
    simp only [handler, ResolutionBudget.stepBlock, fits, decide_true]
    exact halts.mono fun b' left => ⟨left.steps, left.blocks.trans (Nat.le_succ _)⟩
  · simp only [handler, ResolutionBudget.stepBlock, fits, decide_false]
    refine refused { b with blocksUsed := b.blocksUsed + 1 } ⟨stepsLe, ?_⟩
    simp only [ResolutionBudget.blocksLeft] at blocksLe ⊢
    omega

theorem Settles.get {ea : Nat} {f : Option Instruction → Query α}
    (each : ∀ r, Settles port steps blocks (f r)) :
    Settles port steps blocks (.call (.get ea) f) :=
  fun b left => Halts.call (each _ b left)

theorem Settles.funcEaFor {ea : Nat} {f : Option Nat → Query α}
    (each : ∀ r, Settles port steps blocks (f r)) :
    Settles port steps blocks (.call (.funcEaFor ea) f) :=
  fun b left => Halts.call (each _ b left)

theorem Settles.cfgFor {funcEa : Nat} {f : CfgModel → Query α}
    (each : ∀ r, Settles port steps blocks (f r)) :
    Settles port steps blocks (.call (.cfgFor funcEa) f) :=
  fun b left => Halts.call (each _ b left)

theorem Settles.mark {m : Mark} {f : Unit → Query α}
    (rest : Settles port steps blocks (f ())) :
    Settles port steps blocks (.call (.mark m) f) :=
  fun b left => Halts.call (rest b left)

end Settles

section Termination

variable {port : IdaPort} {self : BackwardResolver} {cb : Callbacks} {steps blocks loops : Nat}

/-- With fewer than `steps` steps left, the callbacks return. -/
structure Callbacks.Settle (port : IdaPort) (loops steps : Nat) (cb : Callbacks) : Prop where
  resolveRegister : ∀ fewer < steps, ∀ blocks < loops, ∀ reg ea,
    Settles port fewer blocks (cb.resolveRegister reg ea)
  resolveMemory : ∀ fewer < steps, ∀ blocks < loops, ∀ base disp ea size,
    Settles port fewer blocks (cb.resolveMemory base disp ea size)

/-- Callbacks that settle with more steps left settle with fewer. -/
theorem Callbacks.Settle.mono {fewer : Nat} (nested : cb.Settle port loops steps)
    (le : fewer ≤ steps) : cb.Settle port loops fewer :=
  ⟨fun n lt => nested.resolveRegister n (by omega), fun n lt => nested.resolveMemory n (by omega)⟩

/-- A scan settles, as every fetch costs a step. -/
theorem scanBack_settles {find : Instruction → Option (Query ValueLattice)} {bound : Nat}
    (definitions : ∀ fewer < steps, ∀ i definition, find i = some definition →
      Settles port fewer blocks definition)
    (enough : steps < bound) (lo : Nat) (ea : Option Nat) :
    Settles port steps blocks (scanBack self.port find lo bound ea) := by
  induction bound generalizing steps ea with
  | zero => omega
  | succ bound ih =>
      cases ea with
      | none => exact .pure _
      | some ea =>
          simp only [scanBack, bind_eq, Query.step_bind, Query.get_bind]
          refine .step (.pure _) fun fewer less => .get fun fetched => ?_
          cases found : fetched.bind find with
          | none =>
              exact ih (fun n lt => definitions n (by omega)) (by omega) _
          | some definition =>
              obtain ⟨i, -, known⟩ := Option.bind_eq_some_iff.mp found
              exact (definitions fewer (by omega) i definition known).bind fun value => .pure _

/-- A walk settles, as every block entered costs one of the budget. -/
theorem walkBlock_settles {ρ : Type} {paths : Paths ρ} {cfg : CfgModel}
    {find : Instruction → Option (Query ValueLattice)} {bound : Nat}
    (definitions : ∀ fewer < steps, ∀ blocks < loops, ∀ i definition, find i = some definition →
      Settles port fewer blocks definition)
    (enough : steps < loops) (fits : blocks < loops) (nesting : blocks < bound) (boundary : Nat)
    (block : BasicBlockInfo) (visited : List Nat) :
    Settles port steps blocks
      (walkBlock paths self.port cfg find loops bound boundary block visited) := by
  induction bound generalizing blocks boundary block visited with
  | zero => omega
  | succ bound ih =>
      simp only [walkBlock, bind_eq, Query.stepBlock_bind, Query.mark_bind]
      refine .bind (scanBack_settles (fun n lt => definitions n lt blocks fits) enough _ _)
        fun scanned => ?_
      cases scanned with
      | some value => exact .pure _
      | none =>
          dsimp only
          split
          · exact .pure _
          · split
            · exact .pure _
            · refine .stepBlock (.pure _) fun fewer less => .mark ?_
              refine .bind (.traverse fun pred _ => ?_) fun results => .pure _
              exact ih (by omega) (by omega) pred.endEa pred _

/-- A dereference settles with nothing to walk. -/
theorem dereference_settles (addr : Int) (size : Nat) :
    Settles port steps blocks (self.dereference addr size) := by
  simp only [BackwardResolver.dereference, bind_eq, Query.step_bind]
  refine .step (.pure _) fun fewer less => ?_
  cases self.port.readInt addr size with
  | none => exact .pure _
  | some raw => exact .pure _

/-- A definition is interpreted with fewer steps left than its scan had, so the callbacks settle. -/
theorem interpretDefinition_settles (nested : cb.Settle port loops steps) {fewer : Nat}
    (less : fewer < steps) (fits : blocks < loops) (i : Instruction) (dest : Nat)
    (funcEa : Option Nat) :
    Settles port fewer blocks (self.interpretDefinition cb i dest funcEa) := by
  unfold BackwardResolver.interpretDefinition
  split
  · exact .pure _
  · rename_i l _
    simp only [BackwardResolver.safeExtract, bind_eq, Query.mark_bind]
    refine .bind (.mark (.bind ?_ fun outcome => .pure _)) fun outcome => ?_
    · intro b left
      refine Halts.interpret (fun o b' left' => ?_) (l.extract_total _ _ _ _) left
      cases o with
      | resolveRegister reg ea =>
          exact nested.resolveRegister fewer less blocks fits reg ea b' left'
      | resolveMemory base disp ea size =>
          exact nested.resolveMemory fewer less blocks fits base disp ea size b' left'
      | dereference addr size => exact dereference_settles addr size b' left'
    · split
      · exact .pure _
      · exact .pure _

/-- Acting on a finding settles. -/
theorem settle_settles (nested : cb.Settle port loops steps) {fewer : Nat}
    (less : fewer < steps) (fits : blocks < loops) (i : Instruction) (funcEa : Nat)
    (finding : Finding) : Settles port fewer blocks (self.settle cb i funcEa finding) := by
  cases finding with
  | interpret operand => exact interpretDefinition_settles nested less fits i operand _
  | report value => exact .pure _

/-- What a register definition asks for settles with fewer steps than the scan has left. -/
theorem matchRegisterDefinition_settles (self : BackwardResolver)
    (nested : cb.Settle port loops steps) (reg funcEa : Nat) :
    ∀ fewer < steps, ∀ blocks < loops, ∀ i definition,
      self.matchRegisterDefinition cb reg funcEa i = some definition →
      Settles port fewer blocks definition := by
  intro fewer less blocks fits i definition found
  obtain ⟨finding, -, rfl⟩ := Option.map_eq_some_iff.mp found
  exact settle_settles nested less fits i funcEa finding

/-- What a memory definition asks for settles with fewer steps than the scan has left. -/
theorem matchMemoryDefinition_settles (self : BackwardResolver)
    (nested : cb.Settle port loops steps) (key : MemoryKey) (funcEa : Nat) :
    ∀ fewer < steps, ∀ blocks < loops, ∀ i definition,
      self.matchMemoryDefinition cb key funcEa i = some definition →
      Settles port fewer blocks definition := by
  intro fewer less blocks fits i definition found
  obtain ⟨finding, -, rfl⟩ := Option.map_eq_some_iff.mp found
  exact settle_settles nested less fits i funcEa finding

/-- A register query settles. -/
theorem resolveRegisterImpl_settles (nested : cb.Settle port loops steps) (enough : steps < loops)
    (fits : blocks < loops) (reg : Option Nat) (beforeEa : Nat) :
    Settles port steps blocks (self.resolveRegisterImpl loops cb reg beforeEa) := by
  cases reg with
  | none => exact .pure _
  | some r =>
      simp only [BackwardResolver.resolveRegisterImpl, bind_eq, Query.step_bind,
        Query.funcEaFor_bind, Query.cfgFor_bind]
      refine .step (.pure _) fun fewer less => .funcEaFor fun owner => ?_
      have definitions := matchRegisterDefinition_settles self
        (nested.mono (show fewer ≤ steps by omega)) r
      cases owner with
      | none => exact .pure _
      | some funcEa =>
          refine .cfgFor fun cfg => ?_
          split
          · exact .bind (scanBack_settles (fun n lt => definitions funcEa n lt blocks fits)
              (by omega) _ _) fun scanned => .pure _
          · refine .bind (walkBlock_settles (definitions funcEa) (by omega) fits fits _ _ _)
              fun result => ?_
            split
            · exact .pure _
            · exact .pure _

/-- The search of a memory query settles. -/
theorem searchMemory_settles (nested : cb.Settle port loops steps) (enough : steps < loops)
    (fits : blocks < loops) (base : Option Nat) (disp : Int) (beforeEa : Nat) :
    Settles port steps blocks (self.searchMemory loops cb base disp beforeEa) := by
  simp only [BackwardResolver.searchMemory, bind_eq, Query.funcEaFor_bind, Query.cfgFor_bind]
  refine .funcEaFor fun owner => ?_
  cases owner with
  | none => exact .pure _
  | some funcEa =>
      have definitions := matchMemoryDefinition_settles self nested
      refine .cfgFor fun cfg => ?_
      split
      · refine .bind (scanBack_settles (fun n lt => definitions _ funcEa n lt blocks fits)
          enough _ _) fun scanned => ?_
        split
        · exact .pure _
        · exact .pure _
      · exact walkBlock_settles (definitions _ funcEa) enough fits fits _ _ _

/-- The fallback of a memory query settles. -/
theorem fallbackDereference_settles (nested : cb.Settle port loops steps) (enough : steps < loops)
    (fits : blocks < loops) (base : Option Nat) (disp : Int) (beforeEa size : Nat) :
    Settles port steps blocks (self.fallbackDereference loops cb base disp beforeEa size) := by
  cases base with
  | none => exact dereference_settles _ _
  | some r =>
      refine .bind (resolveRegisterImpl_settles nested enough fits _ _) fun baseVal => ?_
      split
      · exact .pure _
      · exact dereference_settles _ _

/-- A memory query settles. -/
theorem resolveMemoryImpl_settles (nested : cb.Settle port loops steps) (enough : steps < loops)
    (fits : blocks < loops) (base : Option Nat) (disp : Int) (beforeEa size : Nat) :
    Settles port steps blocks (self.resolveMemoryImpl loops cb base disp beforeEa size) := by
  simp only [BackwardResolver.resolveMemoryImpl, bind_eq, Query.step_bind]
  refine .step (.pure _) fun fewer less => ?_
  have inner : cb.Settle port loops fewer := nested.mono (by omega)
  refine .bind (searchMemory_settles inner (by omega) fits _ _ _) fun found => ?_
  split
  · exact .pure _
  · exact fallbackDereference_settles inner (by omega) fits _ _ _ _
  · exact fallbackDereference_settles inner (by omega) fits _ _ _ _

/-- Every nested query spends a step before it calls back, so the nesting is bounded by
the steps that are left. -/
theorem callbacks_settle (self : BackwardResolver) (port : IdaPort) (depth : Nat)
    (enough : depth ≤ loops) :
    (self.callbacks loops depth).Settle port loops depth := by
  induction depth with
  | zero => exact ⟨fun n lt => by omega, fun n lt => by omega⟩
  | succ depth ih =>
      have inner := ih (by omega)
      exact ⟨fun n lt blocks fits => resolveRegisterImpl_settles (inner.mono (by omega)) (by omega)
          fits,
        fun n lt blocks fits => resolveMemoryImpl_settles (inner.mono (by omega)) (by omega) fits⟩

/-- A query about an instruction settles. -/
theorem resolveAtInstructionImpl_settles (nested : cb.Settle port loops steps)
    (fits : blocks < loops) (ea dest : Nat) :
    Settles port steps blocks (self.resolveAtInstructionImpl cb ea dest) := by
  simp only [BackwardResolver.resolveAtInstructionImpl, bind_eq, Query.step_bind, Query.get_bind,
    Query.funcEaFor_bind]
  refine .step (.pure _) fun fewer less => .get fun fetched => ?_
  cases fetched with
  | none => exact .pure _
  | some i =>
      exact .funcEaFor fun owner => interpretDefinition_settles nested (by omega) fits i dest owner

end Termination

/-! ## A larger bound changes nothing -/

section Bounds

variable {port : IdaPort} {self : BackwardResolver} {cb cb' : Callbacks} {loops loops' : Nat}

/-- `cb'` behaves as `cb` wherever `cb` was not cut off. -/
structure Callbacks.Approx (cb cb' : Callbacks) : Prop where
  resolveRegister : ∀ reg ea, Prog.Approx (cb.resolveRegister reg ea) (cb'.resolveRegister reg ea)
  resolveMemory : ∀ base disp ea size,
    Prog.Approx (cb.resolveMemory base disp ea size) (cb'.resolveMemory base disp ea size)

/-- A scan with larger bounds does what the smaller one did. -/
theorem scanBack_approx {find find' : Instruction → Option (Query ValueLattice)}
    (each : ∀ i, Option.Rel Approx (find i) (find' i)) {bound bound' : Nat}
    (le : bound ≤ bound') (lo : Nat) (ea : Option Nat) :
    Approx (scanBack port find lo bound ea) (scanBack port find' lo bound' ea) := by
  induction bound generalizing bound' ea with
  | zero =>
      cases ea with
      | none =>
          simp only [scanBack]
          exact .pure _
      | some ea => exact .diverge
  | succ bound ih =>
      obtain ⟨bound', rfl⟩ : ∃ n, bound' = n + 1 := ⟨bound' - 1, by omega⟩
      cases ea with
      | none => exact .pure _
      | some ea =>
          simp only [scanBack, bind_eq, Query.step_bind, Query.get_bind]
          refine .call fun ok => ?_
          cases ok with
          | false => exact .pure _
          | true =>
              refine .call fun fetched => ?_
              have related : Option.Rel Approx (fetched.bind find) (fetched.bind find') := by
                cases fetched with
                | none => exact .none
                | some i => exact each i
              generalize fetched.bind find = definition at related ⊢
              generalize fetched.bind find' = definition' at related ⊢
              cases related with
              | none => exact ih (by omega) _
              | some h => exact h.bind fun value => .pure _

/-- A walk with larger bounds does what the smaller one did. -/
theorem walkBlock_approx {ρ : Type} {paths : Paths ρ} {cfg : CfgModel}
    {find find' : Instruction → Option (Query ValueLattice)}
    (each : ∀ i, Option.Rel Approx (find i) (find' i)) (le : loops ≤ loops')
    {bound bound' : Nat} (nesting : bound ≤ bound') (boundary : Nat) (block : BasicBlockInfo)
    (visited : List Nat) :
    Approx (walkBlock paths port cfg find loops bound boundary block visited)
      (walkBlock paths port cfg find' loops' bound' boundary block visited) := by
  induction bound generalizing bound' boundary block visited with
  | zero => exact .diverge
  | succ bound ih =>
      obtain ⟨bound', rfl⟩ : ∃ n, bound' = n + 1 := ⟨bound' - 1, by omega⟩
      simp only [walkBlock, bind_eq, Query.stepBlock_bind, Query.mark_bind]
      refine (scanBack_approx each le _ _).bind fun scanned => ?_
      cases scanned with
      | some value => exact .pure _
      | none =>
          dsimp only
          split
          · exact .pure _
          · split
            · exact .pure _
            · refine .call fun ok => ?_
              cases ok with
              | false => exact .pure _
              | true =>
                  refine .call fun _ => Approx.bind (Approx.traverse (fun pred => ?_) _)
                    fun results => .pure _
                  exact ih (by omega) pred.endEa pred _

/-- Deeper callbacks only define more of an interpretation. -/
theorem interpretDefinition_approx (nested : cb.Approx cb') (i : Instruction) (dest : Nat)
    (funcEa : Option Nat) :
    Approx (self.interpretDefinition cb i dest funcEa)
      (self.interpretDefinition cb' i dest funcEa) := by
  unfold BackwardResolver.interpretDefinition
  split
  · exact .pure _
  · simp only [BackwardResolver.safeExtract, bind_eq, Query.mark_bind]
    refine .bind (.call fun _ => .bind (.interpret (fun o => ?_) _) fun outcome => .pure _)
      fun outcome => .refl _
    cases o with
    | resolveRegister reg ea => exact nested.resolveRegister reg ea
    | resolveMemory base disp ea size => exact nested.resolveMemory base disp ea size
    | dereference addr size => exact .refl _

/-- Deeper callbacks only define more of what a finding asks for. -/
theorem settle_approx (nested : cb.Approx cb') (i : Instruction) (funcEa : Nat)
    (finding : Option Finding) :
    Option.Rel Approx (finding.map (self.settle cb i funcEa))
      (finding.map (self.settle cb' i funcEa)) := by
  cases finding with
  | none => exact .none
  | some finding =>
      cases finding with
      | interpret operand => exact .some (interpretDefinition_approx nested i operand _)
      | report value => exact .some (.pure _)

/-- Larger bounds only define more of a register query. -/
theorem resolveRegisterImpl_approx (nested : cb.Approx cb') (le : loops ≤ loops')
    (reg : Option Nat) (beforeEa : Nat) :
    Approx (self.resolveRegisterImpl loops cb reg beforeEa)
      (self.resolveRegisterImpl loops' cb' reg beforeEa) := by
  cases reg with
  | none => exact .pure _
  | some r =>
      have definitions (funcEa : Nat) (i : Instruction) :
          Option.Rel Approx (self.matchRegisterDefinition cb r funcEa i)
            (self.matchRegisterDefinition cb' r funcEa i) :=
        settle_approx nested i funcEa _
      simp only [BackwardResolver.resolveRegisterImpl, bind_eq, Query.step_bind,
        Query.funcEaFor_bind, Query.cfgFor_bind]
      refine .call fun ok => ?_
      cases ok with
      | false => exact .pure _
      | true =>
          refine .call fun owner => ?_
          cases owner with
          | none => exact .pure _
          | some funcEa =>
              refine .call fun cfg => ?_
              cases BackwardResolver.useBlock cfg beforeEa with
              | none => exact (scanBack_approx (definitions funcEa) le _ _).bind fun _ => .refl _
              | some block =>
                  exact (walkBlock_approx (definitions funcEa) le le _ _ _).bind fun _ => .refl _

/-- Larger bounds only define more of the search for a cell. -/
theorem searchMemory_approx (nested : cb.Approx cb') (le : loops ≤ loops')
    (base : Option Nat) (disp : Int) (beforeEa : Nat) :
    Approx (self.searchMemory loops cb base disp beforeEa)
      (self.searchMemory loops' cb' base disp beforeEa) := by
  simp only [BackwardResolver.searchMemory, bind_eq, Query.funcEaFor_bind, Query.cfgFor_bind]
  refine .call fun owner => ?_
  cases owner with
  | none => exact .pure _
  | some funcEa =>
      have definitions (key : MemoryKey) (i : Instruction) :
          Option.Rel Approx (self.matchMemoryDefinition cb key funcEa i)
            (self.matchMemoryDefinition cb' key funcEa i) :=
        settle_approx nested i funcEa _
      refine .call fun cfg => ?_
      cases BackwardResolver.useBlock cfg beforeEa with
      | none => exact (scanBack_approx (definitions _) le _ _).bind fun _ => .refl _
      | some block => exact walkBlock_approx (definitions _) le le _ _ _

/-- Larger bounds only define more of the fallback. -/
theorem fallbackDereference_approx (nested : cb.Approx cb') (le : loops ≤ loops')
    (base : Option Nat) (disp : Int) (beforeEa size : Nat) :
    Approx (self.fallbackDereference loops cb base disp beforeEa size)
      (self.fallbackDereference loops' cb' base disp beforeEa size) := by
  cases base with
  | none => exact .refl _
  | some r => exact (resolveRegisterImpl_approx nested le _ _).bind fun _ => .refl _

/-- Larger bounds only define more of a memory query. -/
theorem resolveMemoryImpl_approx (nested : cb.Approx cb') (le : loops ≤ loops')
    (base : Option Nat) (disp : Int) (beforeEa size : Nat) :
    Approx (self.resolveMemoryImpl loops cb base disp beforeEa size)
      (self.resolveMemoryImpl loops' cb' base disp beforeEa size) := by
  simp only [BackwardResolver.resolveMemoryImpl, bind_eq, Query.step_bind]
  refine .call fun ok => ?_
  cases ok with
  | false => exact .pure _
  | true =>
      refine (searchMemory_approx nested le _ _ _).bind fun found => ?_
      cases found with
      | value v => exact .pure _
      | notFound => exact fallbackDereference_approx nested le _ _ _ _
      | cycle => exact fallbackDereference_approx nested le _ _ _ _

/-- Deeper callbacks only define more. -/
theorem callbacks_approx (self : BackwardResolver) (le : loops ≤ loops') {depth depth' : Nat}
    (deeper : depth ≤ depth') :
    (self.callbacks loops depth).Approx (self.callbacks loops' depth') := by
  induction depth generalizing depth' with
  | zero => exact ⟨fun _ _ => .diverge, fun _ _ _ _ => .diverge⟩
  | succ depth ih =>
      obtain ⟨depth', rfl⟩ : ∃ n, depth' = n + 1 := ⟨depth' - 1, by omega⟩
      have inner := ih (show depth ≤ depth' by omega)
      exact ⟨resolveRegisterImpl_approx inner le, resolveMemoryImpl_approx inner le⟩

/-- Deeper callbacks only define more of a query about an instruction. -/
theorem resolveAtInstructionImpl_approx (nested : cb.Approx cb') (ea dest : Nat) :
    Approx (self.resolveAtInstructionImpl cb ea dest)
      (self.resolveAtInstructionImpl cb' ea dest) := by
  simp only [BackwardResolver.resolveAtInstructionImpl, bind_eq, Query.step_bind, Query.get_bind,
    Query.funcEaFor_bind]
  refine .call fun ok => ?_
  cases ok with
  | false => exact .pure _
  | true =>
      refine .call fun fetched => ?_
      cases fetched with
      | none => exact .pure _
      | some i => exact .call fun owner => interpretDefinition_approx nested i dest owner

end Bounds

end IDAnalysister
