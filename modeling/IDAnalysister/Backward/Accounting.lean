import IDAnalysister.Backward.Engine

/-!
# What a query is charged for

Granted steps pay for every fetch and every extraction of a query, granted blocks for
every expansion, however its callbacks nest and whatever its effects are answered.
-/

namespace IDAnalysister

open Effect Prog

/-! ## Counting on a trace -/

/-- The events that are counted. -/
def Event.stepGranted : Event Resolver → Bool
  | ⟨.step, ok⟩ => ok
  | _ => false

def Event.blockGranted : Event Resolver → Bool
  | ⟨.stepBlock, ok⟩ => ok
  | _ => false

def Event.fetch : Event Resolver → Bool
  | ⟨.get _, _⟩ => true
  | _ => false

def Event.extraction : Event Resolver → Bool
  | ⟨.mark .extract, _⟩ => true
  | _ => false

def Event.expansion : Event Resolver → Bool
  | ⟨.mark .expand, _⟩ => true
  | _ => false

/-- A refused step or block. -/
def Event.Refused : Event Resolver → Prop
  | ⟨.step, ok⟩ => ok = false
  | ⟨.stepBlock, ok⟩ => ok = false
  | _ => False

instance : DecidablePred Event.Refused
  | ⟨.step, ok⟩ => inferInstanceAs (Decidable (ok = false))
  | ⟨.stepBlock, ok⟩ => inferInstanceAs (Decidable (ok = false))
  | ⟨.get _, _⟩ => isFalse id
  | ⟨.funcEaFor _, _⟩ => isFalse id
  | ⟨.cfgFor _, _⟩ => isFalse id
  | ⟨.mark _, _⟩ => isFalse id

/-! ## Granted steps pay for the work -/

/-- A weight under which a granted step pays for a fetch and one extraction, and a
granted block for an expansion. -/
structure Fair (w : Event Resolver → Int) : Prop where
  step : ∀ ok, 0 ≤ w ⟨.step, ok⟩
  fetch : ∀ ea r, 0 ≤ w ⟨.step, true⟩ + w ⟨.get ea, r⟩
  extract : ∀ ea r, 0 ≤ w ⟨.step, true⟩ + w ⟨.get ea, r⟩ + w ⟨.mark .extract, ()⟩
  stepBlock : ∀ ok, 0 ≤ w ⟨.stepBlock, ok⟩
  expand : 0 ≤ w ⟨.stepBlock, true⟩ + w ⟨.mark .expand, ()⟩
  funcEaFor : ∀ ea r, 0 ≤ w ⟨.funcEaFor ea, r⟩
  cfgFor : ∀ ea r, 0 ≤ w ⟨.cfgFor ea, r⟩

section Solvent

variable {w : Event Resolver → Int} {port : IdaPort} {self : BackwardResolver} {cb : Callbacks}

/-- A definition is computed with at most one extraction of its own. -/
def Affordable (w : Event Resolver → Int) (p : Query ValueLattice) : Prop :=
  ∀ credit, 0 ≤ credit → 0 ≤ credit + w ⟨.mark .extract, ()⟩ → Solvent w credit p

/-- The callbacks pay for themselves. -/
structure Callbacks.Solvent (w : Event Resolver → Int) (cb : Callbacks) : Prop where
  resolveRegister : ∀ reg ea, Prog.Solvent w 0 (cb.resolveRegister reg ea)
  resolveMemory : ∀ base disp ea size, Prog.Solvent w 0 (cb.resolveMemory base disp ea size)

private theorem no_debt : (0 : Int) ≤ 0 := Int.le_refl 0

/-- A scan earns what its definitions cost. -/
theorem scanBack_solvent (fair : Fair w) {find : Instruction → Option (Query ValueLattice)}
    (affordable : ∀ i definition, find i = some definition → Affordable w definition)
    (lo bound : Nat) (ea : Option Nat) : Solvent w 0 (scanBack port find lo bound ea) := by
  induction bound generalizing ea with
  | zero => cases ea with
    | none => exact .pure no_debt
    | some ea => exact .diverge
  | succ bound ih =>
      cases ea with
      | none => exact .pure no_debt
      | some ea =>
          simp only [scanBack, bind_eq, Query.step_bind, Query.get_bind]
          refine .call fun ok => ?_
          cases ok with
          | false => exact .pure (by simpa using fair.step false)
          | true =>
              refine .call fun fetched => ?_
              have paid : 0 ≤ 0 + w ⟨.step, true⟩ + w ⟨.get ea, fetched⟩ := by
                simpa using fair.fetch ea fetched
              cases found : fetched.bind find with
              | none => exact (ih _).mono paid
              | some definition =>
                  obtain ⟨i, -, match'⟩ := Option.bind_eq_some_iff.mp found
                  refine .bind (affordable i definition match' _ paid ?_) fun value =>
                    .pure no_debt
                  simpa using fair.extract ea fetched

/-- So does a walk. -/
theorem walkBlock_solvent (fair : Fair w) {ρ : Type} {paths : Paths ρ} {cfg : CfgModel}
    {find : Instruction → Option (Query ValueLattice)}
    (affordable : ∀ i definition, find i = some definition → Affordable w definition)
    (loops bound boundary : Nat) (block : BasicBlockInfo) (visited : List Nat) :
    Solvent w 0 (walkBlock paths port cfg find loops bound boundary block visited) := by
  induction bound generalizing boundary block visited with
  | zero => exact .diverge
  | succ bound ih =>
      simp only [walkBlock, bind_eq, Query.stepBlock_bind, Query.mark_bind]
      refine .bind (scanBack_solvent fair affordable _ _ _) fun scanned => ?_
      cases scanned with
      | some value => exact .pure no_debt
      | none =>
          dsimp only
          split
          · exact .pure no_debt
          · split
            · exact .pure no_debt
            · refine .call fun ok => ?_
              cases ok with
              | false => exact .pure (by simpa using fair.stepBlock false)
              | true =>
                  refine .call fun _ => (Solvent.bind ?_ fun results => .pure no_debt).mono
                    (by simpa using fair.expand)
                  exact .traverse fun pred _ => ih pred.endEa pred _

/-- A dereference earns what it costs. -/
theorem dereference_solvent (fair : Fair w) (addr : Int) (size : Nat) :
    Solvent w 0 (self.dereference addr size) := by
  simp only [BackwardResolver.dereference, bind_eq, Query.step_bind]
  refine .call fun ok => ?_
  have paid : 0 ≤ 0 + w ⟨.step, ok⟩ := by simpa using fair.step ok
  split
  · split
    · exact .pure paid
    · exact .pure paid
  · exact .pure paid

theorem answerCallback_solvent (fair : Fair w) (nested : cb.Solvent w) (o : Callback.Op) :
    Solvent w 0 (self.answerCallback cb o) := by
  cases o with
  | resolveRegister reg ea => exact nested.resolveRegister reg ea
  | resolveMemory base disp ea size => exact nested.resolveMemory base disp ea size
  | dereference addr size => exact dereference_solvent fair addr size

/-- Interpreting a definition takes one extraction, and its callbacks pay for themselves. -/
theorem interpretDefinition_affordable (fair : Fair w) (nested : cb.Solvent w)
    (i : Instruction) (dest : Nat) (funcEa : Option Nat) :
    Affordable w (self.interpretDefinition cb i dest funcEa) := by
  intro credit free paid
  unfold BackwardResolver.interpretDefinition
  split
  · exact .pure free
  · simp only [BackwardResolver.safeExtract, bind_eq, Query.mark_bind]
    refine .bind (.call fun _ => (Solvent.bind ?_ fun outcome => .pure no_debt).mono paid)
      fun outcome => ?_
    · exact .interpret (answerCallback_solvent fair nested) _
    · split
      · exact .pure no_debt
      · exact .pure no_debt

theorem settle_affordable (fair : Fair w) (nested : cb.Solvent w) (i : Instruction)
    (funcEa : Nat) (finding : Finding) : Affordable w (self.settle cb i funcEa finding) := by
  cases finding with
  | interpret operand => exact interpretDefinition_affordable fair nested i operand _
  | report value => exact fun credit free _ => .pure free

theorem matchRegisterDefinition_affordable (fair : Fair w) (nested : cb.Solvent w)
    (reg funcEa : Nat) (i : Instruction) (definition : Query ValueLattice)
    (found : self.matchRegisterDefinition cb reg funcEa i = some definition) :
    Affordable w definition := by
  obtain ⟨finding, -, rfl⟩ := Option.map_eq_some_iff.mp found
  exact settle_affordable fair nested i funcEa finding

theorem matchMemoryDefinition_affordable (fair : Fair w) (nested : cb.Solvent w)
    (key : MemoryKey) (funcEa : Nat) (i : Instruction) (definition : Query ValueLattice)
    (found : self.matchMemoryDefinition cb key funcEa i = some definition) :
    Affordable w definition := by
  obtain ⟨finding, -, rfl⟩ := Option.map_eq_some_iff.mp found
  exact settle_affordable fair nested i funcEa finding

/-- A register query costs nothing in balance. -/
theorem resolveRegisterImpl_solvent (fair : Fair w) (nested : cb.Solvent w) (loops : Nat)
    (reg : Option Nat) (beforeEa : Nat) :
    Solvent w 0 (self.resolveRegisterImpl loops cb reg beforeEa) := by
  cases reg with
  | none => exact .pure no_debt
  | some r =>
      simp only [BackwardResolver.resolveRegisterImpl, bind_eq, Query.step_bind,
        Query.funcEaFor_bind, Query.cfgFor_bind]
      refine .call fun ok => Solvent.mono ?_ (by simpa using fair.step ok)
      split
      · refine .call fun owner => Solvent.mono ?_ (by simpa using fair.funcEaFor beforeEa owner)
        split
        · exact .pure no_debt
        · rename_i funcEa
          refine .call fun cfg => Solvent.mono ?_ (by simpa using fair.cfgFor funcEa cfg)
          split
          · exact .bind (scanBack_solvent fair
              (matchRegisterDefinition_affordable fair nested r funcEa) _ _ _)
              fun scanned => .pure no_debt
          · refine .bind (walkBlock_solvent fair
              (matchRegisterDefinition_affordable fair nested r funcEa) _ _ _ _ _) fun result => ?_
            split
            · exact .pure no_debt
            · exact .pure no_debt
      · exact .pure no_debt

theorem searchMemory_solvent (fair : Fair w) (nested : cb.Solvent w) (loops : Nat)
    (base : Option Nat) (disp : Int) (beforeEa : Nat) :
    Solvent w 0 (self.searchMemory loops cb base disp beforeEa) := by
  simp only [BackwardResolver.searchMemory, bind_eq, Query.funcEaFor_bind, Query.cfgFor_bind]
  refine .call fun owner => Solvent.mono ?_ (by simpa using fair.funcEaFor beforeEa owner)
  split
  · exact .pure no_debt
  · rename_i funcEa
    refine .call fun cfg => Solvent.mono ?_ (by simpa using fair.cfgFor funcEa cfg)
    split
    · refine .bind (scanBack_solvent fair
        (matchMemoryDefinition_affordable fair nested _ funcEa) _ _ _) fun scanned => ?_
      split
      · exact .pure no_debt
      · exact .pure no_debt
    · exact walkBlock_solvent fair (matchMemoryDefinition_affordable fair nested _ funcEa) _ _ _ _ _

theorem fallbackDereference_solvent (fair : Fair w) (nested : cb.Solvent w) (loops : Nat)
    (base : Option Nat) (disp : Int) (beforeEa size : Nat) :
    Solvent w 0 (self.fallbackDereference loops cb base disp beforeEa size) := by
  cases base with
  | none => exact dereference_solvent fair disp size
  | some r =>
      refine .bind (resolveRegisterImpl_solvent fair nested loops _ _) fun baseVal => ?_
      split
      · exact .pure no_debt
      · exact dereference_solvent fair _ _

/-- A memory query costs nothing in balance. -/
theorem resolveMemoryImpl_solvent (fair : Fair w) (nested : cb.Solvent w) (loops : Nat)
    (base : Option Nat) (disp : Int) (beforeEa size : Nat) :
    Solvent w 0 (self.resolveMemoryImpl loops cb base disp beforeEa size) := by
  simp only [BackwardResolver.resolveMemoryImpl, bind_eq, Query.step_bind]
  refine .call fun ok => Solvent.mono ?_ (by simpa using fair.step ok)
  split
  · refine .bind (searchMemory_solvent fair nested loops _ _ _) fun found => ?_
    split
    · exact .pure no_debt
    · exact fallbackDereference_solvent fair nested loops _ _ _ _
    · exact fallbackDereference_solvent fair nested loops _ _ _ _
  · exact .pure no_debt

/-- Callbacks cost nothing in balance, at every nesting depth. -/
theorem callbacks_solvent (self : BackwardResolver) (fair : Fair w) (loops depth : Nat) :
    (self.callbacks loops depth).Solvent w := by
  induction depth with
  | zero => exact ⟨fun _ _ => .diverge, fun _ _ _ _ => .diverge⟩
  | succ depth ih =>
      exact ⟨resolveRegisterImpl_solvent fair ih loops, resolveMemoryImpl_solvent fair ih loops⟩

/-- A query about an instruction costs nothing in balance. -/
theorem resolveAtInstructionImpl_solvent (fair : Fair w) (nested : cb.Solvent w) (ea dest : Nat) :
    Solvent w 0 (self.resolveAtInstructionImpl cb ea dest) := by
  simp only [BackwardResolver.resolveAtInstructionImpl, bind_eq, Query.step_bind, Query.get_bind,
    Query.funcEaFor_bind]
  refine .call fun ok => ?_
  cases ok with
  | false => exact .pure (by simpa using fair.step false)
  | true =>
      refine .call fun fetched => ?_
      have paid : 0 ≤ 0 + w ⟨.step, true⟩ + w ⟨.get ea, fetched⟩ := by
        simpa using fair.fetch ea fetched
      cases fetched with
      | none => exact .pure paid
      | some i =>
          refine .call fun owner => interpretDefinition_affordable fair nested i dest owner _ ?_ ?_
          · have := fair.funcEaFor ea owner
            omega
          · have := fair.extract ea (some i)
            have := fair.funcEaFor ea owner
            omega

end Solvent

end IDAnalysister
