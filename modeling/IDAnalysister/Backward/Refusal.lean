import IDAnalysister.Backward.Accounting

/-!
# A refused step shows in the answer

No join, no dropped cycle, no fallback to static memory and no built-in locator
swallows a refusal of the budget: an execution in which a step or a block was refused
answers `unknown`.
-/

namespace IDAnalysister

open Effect Prog

/-! ## Locators that pass an unknown answer on -/

/-- The value says nothing. -/
def Undetermined (v : ValueLattice) : Prop := v.isKnown = false

/-- The outcome makes the resolver answer `unknown`. -/
def Fruitless : Option LocatorOutcome → Prop
  | some (.resolved v) => Undetermined v
  | _ => True

/-- An unknown answer to one of its callbacks makes the extraction fruitless. -/
def StrictExtraction (p : Extraction) : Prop :=
  Surfaces (fun e : Event Callback => Undetermined e.ans) Fruitless p

def Locator.Strict (l : Locator) : Prop :=
  ∀ port funcEa i dest, StrictExtraction (l.extract port funcEa i dest)

/-- Looking at an operand keeps an extraction strict. -/
theorem withOperand_strict {i : Instruction} {number : Nat} {f : Operand → Extraction}
    (each : ∀ op, StrictExtraction (f op)) : StrictExtraction (withOperand i number f) := by
  unfold withOperand
  split
  · exact each _
  · exact Surfaces.pure

/-- Passing the answer of a single callback on. -/
theorem relay_strict (o : Callback.Op) :
    StrictExtraction (.call o fun value => Extraction.resolved value) :=
  .call (fun _ loud => .pure loud) fun _ => .pure

/-- Loading a memory operand is strict. -/
theorem loadMemoryOperand_strict (port : IdaPort) (op : Operand) (beforeEa : Nat) :
    StrictExtraction ((loadMemoryOperand port op beforeEa).bind Extraction.resolved) := by
  unfold loadMemoryOperand
  split
  · exact .pure
  · dsimp only
    split
    · exact relay_strict _
    · split
      · split
        · exact .pure
        · exact relay_strict _
      · exact .pure

theorem leaRegDispl_strict : leaRegDispl.Strict := by
  intro port funcEa i dest
  refine withOperand_strict fun dst => withOperand_strict fun src => ?_
  refine .call (fun base loud => ?_) fun _ => .pure
  obtain ⟨reason, detail, rfl⟩ := ValueLattice.isKnown_eq_false loud
  exact .pure rfl

theorem addSubRegImm_strict : addSubRegImm.Strict := by
  intro port funcEa i dest
  refine withOperand_strict fun dst => withOperand_strict fun src => ?_
  refine .call (fun prior loud => ?_) fun prior => ?_
  · obtain ⟨reason, detail, rfl⟩ := ValueLattice.isKnown_eq_false loud
    exact .pure rfl
  · simp only [bind_pure_left]
    split
    · exact .pure
    · split
      · exact .pure
      · exact .pure

theorem xchgRegReg_strict : xchgRegReg.Strict := by
  intro port funcEa i dest
  cases known : (if dest ≤ 1 then i.operand (1 - dest) else none) with
  | none =>
      simp only [xchgRegReg, known]
      exact .pure
  | some other =>
      by_cases reg : other.kind = .reg
      · rw [xchgRegReg_extract known reg]
        exact relay_strict _
      · simp only [xchgRegReg, known, if_neg reg]
        exact .pure

theorem pushLocator_strict : pushLocator.Strict := by
  intro port funcEa i dest
  refine withOperand_strict fun op => ?_
  split
  · exact relay_strict _
  · split
    · exact .pure
    · split
      · exact loadMemoryOperand_strict port op i.ea
      · exact .pure

/-- Every built-in locator passes an unknown answer on. -/
theorem builtins_strict : ∀ l ∈ defaultRegistry.all, l.Strict := by
  rw [defaultRegistry_all]
  simp only [builtins, List.forall_mem_cons]
  refine ⟨fun _ _ _ _ => .pure, ?_, ?_, ?_, xchgRegReg_strict, fun _ _ _ _ => .pure, ?_, ?_,
    pushLocator_strict, ?_, fun _ _ _ _ => .pure, leaRegDispl_strict, addSubRegImm_strict, by simp⟩
  · exact fun _ _ _ _ => withOperand_strict fun _ => relay_strict _
  · exact fun _ _ _ _ => withOperand_strict fun _ => .pure
  · exact fun _ _ _ _ => withOperand_strict fun _ => .pure
  · exact fun _ _ _ _ => withOperand_strict fun _ => .pure
  · exact fun port _ i _ => withOperand_strict fun src => loadMemoryOperand_strict port src i.ea
  · exact fun _ _ _ _ => withOperand_strict fun _ => relay_strict _

/-- The built-in locators are strict. -/
theorem strict_of_builtin {self : BackwardResolver} (builtin : self.registry = defaultRegistry) :
    ∀ l ∈ self.registry.all, l.Strict := by
  rw [builtin]
  exact builtins_strict

/-! ## The search -/

/-- One undetermined value makes the join undetermined. -/
theorem undetermined_joinAll {vs : List ValueLattice} (h : ∃ v ∈ vs, Undetermined v) :
    Undetermined (.joinAll vs) := by
  obtain ⟨v, member, loud⟩ := h
  cases known : (ValueLattice.joinAll vs).isKnown with
  | false => exact known
  | true =>
      rw [Undetermined, ValueLattice.isKnown_of_le (ValueLattice.joinAll_le member) known] at loud
      cases loud

/-- The walk reports an unknown value. -/
def RegisterPath.Lost : RegisterPath → Prop
  | .value v => Undetermined v
  | .cycle => False

def MemoryPath.Lost : MemoryPath → Prop
  | .value v => Undetermined v
  | _ => False

/-- One lost path makes the register query lost. -/
theorem joinRegisterPaths_lost {results : List RegisterPath} (h : ∃ r ∈ results, r.Lost) :
    (joinRegisterPaths results).Lost := by
  obtain ⟨r, member, lost⟩ := h
  cases r with
  | cycle => exact lost.elim
  | value v =>
      have informative : v ∈ results.filterMap RegisterPath.value? :=
        List.mem_filterMap.mpr ⟨_, member, rfl⟩
      unfold joinRegisterPaths
      split
      · rename_i empty
        rw [empty] at informative
        cases informative
      · exact undetermined_joinAll ⟨v, informative, lost⟩

/-- One lost path makes the memory query lost. -/
theorem joinMemoryPaths_lost {results : List MemoryPath} (h : ∃ r ∈ results, r.Lost) :
    (joinMemoryPaths results).Lost := by
  obtain ⟨r, member, lost⟩ := h
  cases r with
  | notFound => exact lost.elim
  | cycle => exact lost.elim
  | value v =>
      have informative : MemoryPath.value v ∈ results.filter (· ≠ .cycle) := by
        simp [List.mem_filter, member]
      have found : v ∈ (results.filter (· ≠ .cycle)).filterMap MemoryPath.value? :=
        List.mem_filterMap.mpr ⟨_, informative, rfl⟩
      unfold joinMemoryPaths
      rw [if_neg (List.ne_nil_of_mem informative), if_neg (List.ne_nil_of_mem found)]
      split
      · exact rfl
      · exact undetermined_joinAll ⟨v, found, lost⟩

/-- A step that shows its refusal, before a program that shows its own. -/
theorem surfaces_step {α : Type} {bad : α → Prop} {k : Bool → Query α} {a : α}
    (refused : k false = .pure a) (lost : bad a) (granted : Surfaces Event.Refused bad (k true)) :
    Surfaces Event.Refused bad (.call .step k) := by
  refine .call (fun ok alarm => ?_) fun ok => ?_
  · cases alarm
    rw [refused]
    exact .pure lost
  · cases ok with
    | false =>
        rw [refused]
        exact .pure
    | true => exact granted

section Search

variable {port : IdaPort} {self : BackwardResolver} {cb : Callbacks} {loops : Nat}

/-- Every definition that `find` recognises shows its refusals. -/
def Candid (find : Instruction → Option (Query ValueLattice)) : Prop :=
  ∀ i definition, find i = some definition → Surfaces Event.Refused Undetermined definition

/-- A refused step in a scan surfaces in what it reports. -/
theorem scanBack_surfaces {find : Instruction → Option (Query ValueLattice)}
    (candid : Candid find) (lo bound : Nat) (ea : Option Nat) :
    Surfaces Event.Refused (fun scanned => ∃ v, scanned = some v ∧ Undetermined v)
      (scanBack port find lo bound ea) := by
  induction bound generalizing ea with
  | zero => cases ea with
    | none => exact .pure
    | some ea => exact .diverge
  | succ bound ih =>
      cases ea with
      | none => exact .pure
      | some ea =>
          simp only [scanBack, bind_eq, Query.step_bind, Query.get_bind]
          refine surfaces_step rfl ⟨_, rfl, rfl⟩ ?_
          refine .call (fun _ quiet => quiet.elim) fun fetched => ?_
          cases found : fetched.bind find with
          | none => exact ih _
          | some definition =>
              obtain ⟨i, -, known⟩ := Option.bind_eq_some_iff.mp found
              exact .bind (candid i definition known)
                (fun v lost => .pure ⟨v, rfl, lost⟩) fun v => .pure

/-- A refused step in a walk surfaces in what it reports. -/
theorem walkBlock_surfaces {ρ : Type} (paths : Paths ρ) (lost : ρ → Prop) {cfg : CfgModel}
    {find : Instruction → Option (Query ValueLattice)} (candid : Candid find)
    (lost_ofValue : ∀ v, Undetermined v → lost (paths.ofValue v))
    (lost_join : ∀ results, (∃ r ∈ results, lost r) → lost (paths.join results))
    (bound boundary : Nat) (block : BasicBlockInfo) (visited : List Nat) :
    Surfaces Event.Refused lost
      (walkBlock paths port cfg find loops bound boundary block visited) := by
  induction bound generalizing boundary block visited with
  | zero => exact .diverge
  | succ bound ih =>
      simp only [walkBlock, bind_eq, Query.stepBlock_bind, Query.mark_bind]
      refine .bind (scanBack_surfaces candid _ _ _) ?_ fun scanned => ?_
      · intro _ given
        rcases given with ⟨v, rfl, unknown⟩
        exact .pure (lost_ofValue v unknown)
      · cases scanned with
        | some value => exact .pure
        | none =>
            dsimp only
            split
            · exact .pure
            · split
              · exact .pure
              · refine .call (fun ok refused => ?_) fun ok => ?_
                · cases refused
                  exact .pure (lost_ofValue _ rfl)
                · cases ok with
                  | false => exact .pure
                  | true =>
                      refine .call (fun _ quiet => quiet.elim) fun _ => ?_
                      refine .bind (.traverse fun pred _ => ih pred.endEa pred _)
                        (fun results some_lost => .pure (lost_join results some_lost))
                        fun results => .pure

end Search

/-! ## The resolver -/

section Resolver

variable {self : BackwardResolver} {cb : Callbacks} {loops : Nat}

structure Callbacks.Candid (cb : Callbacks) : Prop where
  resolveRegister : ∀ reg ea, Surfaces Event.Refused Undetermined (cb.resolveRegister reg ea)
  resolveMemory : ∀ base disp ea size,
    Surfaces Event.Refused Undetermined (cb.resolveMemory base disp ea size)

/-- A refused dereference is undetermined. -/
theorem dereference_surfaces (addr : Int) (size : Nat) :
    Surfaces Event.Refused Undetermined (self.dereference addr size) := by
  simp only [BackwardResolver.dereference, bind_eq, Query.step_bind]
  refine surfaces_step rfl rfl ?_
  cases self.port.readInt addr size with
  | none => exact .pure
  | some raw => exact .pure

/-- A refused callback makes a strict extraction fruitless. -/
theorem safeExtract_surfaces {l : Locator} (strict : l.Strict) (nested : cb.Candid)
    (i : Instruction) (dest : Nat) (funcEa : Option Nat) :
    Surfaces Event.Refused (fun outcome => Fruitless (some outcome))
      (self.safeExtract cb l i dest funcEa) := by
  have answered (o : Callback.Op) :
      Surfaces Event.Refused Undetermined (self.answerCallback cb o) := by
    cases o with
    | resolveRegister reg ea => exact nested.resolveRegister reg ea
    | resolveMemory base disp ea size => exact nested.resolveMemory base disp ea size
    | dereference addr size => exact dereference_surfaces addr size
  simp only [BackwardResolver.safeExtract, bind_eq, Query.mark_bind]
  refine .call (fun _ quiet => quiet.elim) fun _ => ?_
  refine (Surfaces.interpret answered (strict self.port funcEa i dest)).bind
    (fun outcome fruitless => .pure ?_) fun _ => .pure
  cases outcome with
  | none => trivial
  | some outcome => exact fruitless

/-- A refusal below a definition makes its value undetermined. -/
theorem interpretDefinition_surfaces (strict : ∀ l ∈ self.registry.all, l.Strict)
    (nested : cb.Candid) (i : Instruction) (dest : Nat) (funcEa : Option Nat) :
    Surfaces Event.Refused Undetermined (self.interpretDefinition cb i dest funcEa) := by
  unfold BackwardResolver.interpretDefinition
  split
  · exact .pure
  · rename_i l matched
    refine .bind (safeExtract_surfaces (strict l (LocatorRegistry.findMatch_mem matched)) nested
      i dest funcEa) ?_ fun outcome => ?_
    · intro outcome fruitless
      cases outcome with
      | notApplicable => exact .pure rfl
      | resolved value => exact .pure fruitless
    · cases outcome with
      | notApplicable => exact .pure
      | resolved value => exact .pure

/-- What findings ask for is candid. -/
theorem candid_settle (strict : ∀ l ∈ self.registry.all, l.Strict) (nested : cb.Candid)
    (funcEa : Nat) (find : Instruction → Option Finding) :
    Candid fun i => (find i).map (self.settle cb i funcEa) := by
  intro i definition found
  obtain ⟨finding, -, rfl⟩ := Option.map_eq_some_iff.mp found
  cases finding with
  | interpret operand => exact interpretDefinition_surfaces strict nested i operand _
  | report value => exact .pure

/-- A refusal below a register query makes it undetermined. -/
theorem resolveRegisterImpl_surfaces (strict : ∀ l ∈ self.registry.all, l.Strict)
    (nested : cb.Candid) (loops : Nat) (reg : Option Nat) (beforeEa : Nat) :
    Surfaces Event.Refused Undetermined (self.resolveRegisterImpl loops cb reg beforeEa) := by
  cases reg with
  | none => exact .pure
  | some r =>
      have candid (funcEa : Nat) : Candid (self.matchRegisterDefinition cb r funcEa) :=
        candid_settle strict nested funcEa fun i => registerFinding self.port i r
      simp only [BackwardResolver.resolveRegisterImpl, bind_eq, Query.step_bind,
        Query.funcEaFor_bind, Query.cfgFor_bind]
      refine surfaces_step rfl rfl ?_
      refine .call (fun _ quiet => quiet.elim) fun owner => ?_
      cases owner with
      | none => exact .pure
      | some funcEa =>
          refine .call (fun _ quiet => quiet.elim) fun cfg => ?_
          cases BackwardResolver.useBlock cfg beforeEa with
          | none =>
              refine .bind (scanBack_surfaces (candid funcEa) _ _ _) ?_ fun _ => .pure
              intro _ given
              rcases given with ⟨v, rfl, lost⟩
              exact .pure lost
          | some block =>
              refine .bind (walkBlock_surfaces registerPaths RegisterPath.Lost (candid funcEa)
                (fun _ lost => lost)
                (fun _ lost => joinRegisterPaths_lost lost) _ _ _ _)
                (fun result lost => ?_) fun result => ?_
              · cases result with
                | cycle => exact lost.elim
                | value v => exact .pure lost
              · cases result with
                | cycle => exact .pure
                | value v => exact .pure

/-- A refusal below the search for a cell makes it lost. -/
theorem searchMemory_surfaces (strict : ∀ l ∈ self.registry.all, l.Strict)
    (nested : cb.Candid) (loops : Nat) (base : Option Nat) (disp : Int) (beforeEa : Nat) :
    Surfaces Event.Refused MemoryPath.Lost (self.searchMemory loops cb base disp beforeEa) := by
  simp only [BackwardResolver.searchMemory, bind_eq, Query.funcEaFor_bind, Query.cfgFor_bind]
  refine .call (fun _ quiet => quiet.elim) fun owner => ?_
  cases owner with
  | none => exact .pure
  | some funcEa =>
      have candid (key : MemoryKey) : Candid (self.matchMemoryDefinition cb key funcEa) :=
        candid_settle strict nested funcEa fun i => memoryFinding self.port i key funcEa
      refine .call (fun _ quiet => quiet.elim) fun cfg => ?_
      cases BackwardResolver.useBlock cfg beforeEa with
      | none =>
          refine .bind (scanBack_surfaces (candid _) _ _ _) ?_ fun scanned => ?_
          · intro _ given
            rcases given with ⟨v, rfl, lost⟩
            exact .pure lost
          · cases scanned with
            | none => exact .pure
            | some v => exact .pure
      | some block =>
          exact walkBlock_surfaces memoryPaths MemoryPath.Lost (candid _) (fun _ lost => lost)
            (fun _ lost => joinMemoryPaths_lost lost) _ _ _ _

/-- A refusal below the fallback makes it undetermined. -/
theorem fallbackDereference_surfaces (strict : ∀ l ∈ self.registry.all, l.Strict)
    (nested : cb.Candid) (loops : Nat) (base : Option Nat) (disp : Int) (beforeEa size : Nat) :
    Surfaces Event.Refused Undetermined
      (self.fallbackDereference loops cb base disp beforeEa size) := by
  cases base with
  | none => exact dereference_surfaces disp size
  | some r =>
      refine .bind (resolveRegisterImpl_surfaces strict nested loops _ _) (fun baseVal lost => ?_)
        fun baseVal => ?_
      · obtain ⟨reason, detail, rfl⟩ := ValueLattice.isKnown_eq_false lost
        exact .pure rfl
      · cases baseVal.intOf with
        | none => exact .pure
        | some n => exact dereference_surfaces _ _

/-- A refusal below a memory query makes it undetermined. -/
theorem resolveMemoryImpl_surfaces (strict : ∀ l ∈ self.registry.all, l.Strict)
    (nested : cb.Candid) (loops : Nat) (base : Option Nat) (disp : Int) (beforeEa size : Nat) :
    Surfaces Event.Refused Undetermined
      (self.resolveMemoryImpl loops cb base disp beforeEa size) := by
  simp only [BackwardResolver.resolveMemoryImpl, bind_eq, Query.step_bind]
  refine surfaces_step rfl rfl ?_
  refine .bind (searchMemory_surfaces strict nested loops _ _ _) (fun found lost => ?_)
    fun found => ?_
  · cases found with
    | value v => exact .pure lost
    | notFound => exact lost.elim
    | cycle => exact lost.elim
  · cases found with
    | value v => exact .pure
    | notFound => exact fallbackDereference_surfaces strict nested loops _ _ _ _
    | cycle => exact fallbackDereference_surfaces strict nested loops _ _ _ _

/-- Callbacks are candid at every nesting depth. -/
theorem callbacks_candid (strict : ∀ l ∈ self.registry.all, l.Strict) (loops depth : Nat) :
    (self.callbacks loops depth).Candid := by
  induction depth with
  | zero => exact ⟨fun _ _ => .diverge, fun _ _ _ _ => .diverge⟩
  | succ depth ih =>
      exact ⟨resolveRegisterImpl_surfaces strict ih loops,
        resolveMemoryImpl_surfaces strict ih loops⟩

/-- A refusal below a query about an instruction makes it undetermined. -/
theorem resolveAtInstructionImpl_surfaces (strict : ∀ l ∈ self.registry.all, l.Strict)
    (nested : cb.Candid) (ea dest : Nat) :
    Surfaces Event.Refused Undetermined (self.resolveAtInstructionImpl cb ea dest) := by
  simp only [BackwardResolver.resolveAtInstructionImpl, bind_eq, Query.step_bind, Query.get_bind,
    Query.funcEaFor_bind]
  refine surfaces_step rfl rfl ?_
  refine .call (fun _ quiet => quiet.elim) fun fetched => ?_
  cases fetched with
  | none => exact .pure
  | some i =>
      exact .call (fun _ quiet => quiet.elim) fun owner =>
        interpretDefinition_surfaces strict nested i dest owner

end Resolver

end IDAnalysister
