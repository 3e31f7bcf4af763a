import IDAnalysister.Backward.Budget
import IDAnalysister.Library.Improvement
import IDAnalysister.Locators.Dispatch

/-!
# Registering more locators

A locator that is registered later, behind those that accept the same instructions, changes no
match that there was; it only adds matches. An instruction without a match makes its answer
unknown, and no locator that passes unknown answers on hides that. So whatever the new locators
do, every known answer of the resolver stays as it is (`answer_extended`).
-/

namespace IDAnalysister

open Effect Prog

/-! ## Registries -/

/-- Every match of the first registry is a match of the second. -/
def LocatorRegistry.Extends (r r' : LocatorRegistry) : Prop :=
  ∀ i l, r.findMatch i = some l → r'.findMatch i = some l

/-- Locators that are registered last, and come before none that accepts the same instruction. -/
theorem LocatorRegistry.extends_registerAll {entries added : List (Int × Locator)}
    (behind : ∀ new ∈ added, ∀ i, new.2.accepts i = some true →
      ∀ old ∈ entries, old.2.accepts i = some true → new.1 ≤ old.1) :
    (registerAll entries).Extends (registerAll (entries ++ added)) := by
  intro i l found
  rcases findMatch_eq_some_iff.mp found with
    ⟨priority, before, after, rfl, accepted, earlier, later⟩
  refine findMatch_eq_some_iff.mpr
    ⟨priority, before, after ++ added, by simp, accepted, earlier, fun e member other => ?_⟩
  rcases List.mem_append.mp member with old | new
  · exact later e old other
  · exact behind e new i other (priority, l) (by simp) accepted

/-- The same resolver with another registry. -/
def BackwardResolver.withRegistry (self : BackwardResolver) (r : LocatorRegistry) :
    BackwardResolver :=
  { self with registry := r }

/-! ## The search -/

/-- The second search finds definitions where the first one does, and computes them better. -/
def FindsBetter (find find' : Instruction → Option (Query ValueLattice)) : Prop :=
  ∀ i, Option.Rel (Improves Undetermined) (find i) (find' i)

section Search

variable {port : IdaPort} {find find' : Instruction → Option (Query ValueLattice)}

/-- A scan with better definitions keeps every determined value. -/
theorem scanBack_improves (better : FindsBetter find find') (lo bound : Nat) (ea : Option Nat) :
    Improves (fun scanned => ∃ v, scanned = some v ∧ Undetermined v)
      (scanBack port find lo bound ea) (scanBack port find' lo bound ea) := by
  induction bound generalizing ea with
  | zero =>
      cases ea with
      | none => exact .refl _
      | some x => exact .diverge
  | succ bound ih =>
      cases ea with
      | none => exact .refl _
      | some x =>
          refine .call fun ok => ?_
          cases ok with
          | false => exact .refl _
          | true =>
              refine .call fun fetched => ?_
              cases fetched with
              | none => exact ih _
              | some i =>
                  have related := better i
                  dsimp only [bind_pure_left, Option.bind]
                  generalize find i = definition at related ⊢
                  generalize find' i = definition' at related ⊢
                  cases related with
                  | none => exact ih _
                  | some improves =>
                      exact improves.bind (fun v lost => .pure ⟨v, rfl, lost⟩) fun v => .refl _

/-- A walk with better definitions keeps every determined result. -/
theorem walkBlock_improves {ρ : Type} (paths : Paths ρ) (lost : ρ → Prop) {cfg : CfgModel}
    (better : FindsBetter find find')
    (lost_ofValue : ∀ v, Undetermined v → lost (paths.ofValue v))
    (lost_join : ∀ results, (∃ r ∈ results, lost r) → lost (paths.join results))
    (loops bound boundary : Nat) (block : BasicBlockInfo) (visited : List Nat) :
    Improves lost (walkBlock paths port cfg find loops bound boundary block visited)
      (walkBlock paths port cfg find' loops bound boundary block visited) := by
  induction bound generalizing boundary block visited with
  | zero => exact .refl _
  | succ bound ih =>
      refine (scanBack_improves better _ _ _).bind ?_ fun scanned => ?_
      · intro _ given
        rcases given with ⟨v, rfl, unknown⟩
        exact .pure (lost_ofValue v unknown)
      · cases scanned with
        | some value => exact .refl _
        | none =>
            dsimp only
            split
            · exact .refl _
            · split
              · exact .refl _
              · refine .call fun ok => ?_
                cases ok with
                | false => exact .refl _
                | true =>
                    refine .call fun _ => ?_
                    have walked : Improves (fun results => ∃ r ∈ results, lost r)
                        (Prog.traverse (fun pred => walkBlock paths port cfg find loops bound
                          pred.endEa pred (block.startEa :: visited)) (cfg.predecessors block))
                        (Prog.traverse (fun pred => walkBlock paths port cfg find' loops bound
                          pred.endEa pred (block.startEa :: visited)) (cfg.predecessors block)) :=
                      .traverse fun pred _ => ih pred.endEa pred _
                    exact walked.bind
                      (fun results some_lost => .pure (lost_join results some_lost))
                      fun results => .refl (.pure (paths.join results))

end Search

/-! ## The resolver -/

/-- The callbacks of the second resolver answer better. -/
structure Callbacks.Improve (cb cb' : Callbacks) : Prop where
  resolveRegister : ∀ reg ea,
    Improves Undetermined (cb.resolveRegister reg ea) (cb'.resolveRegister reg ea)
  resolveMemory : ∀ base disp ea size,
    Improves Undetermined (cb.resolveMemory base disp ea size)
      (cb'.resolveMemory base disp ea size)

section Resolver

variable {self : BackwardResolver} {r' : LocatorRegistry} {cb cb' : Callbacks}
variable (strict : ∀ l ∈ self.registry.all, l.Strict) (extended : self.registry.Extends r')

include strict extended

/-- With more locators and better callbacks a definition keeps its determined value. -/
theorem interpretDefinition_improves (nested : cb.Improve cb') (i : Instruction) (dest : Nat)
    (funcEa : Option Nat) :
    Improves Undetermined (self.interpretDefinition cb i dest funcEa)
      ((self.withRegistry r').interpretDefinition cb' i dest funcEa) := by
  have answers : ∀ o : Callback.Op, Improves (fun v => Undetermined v)
      (self.answerCallback cb o) ((self.withRegistry r').answerCallback cb' o) := by
    intro o
    cases o with
    | resolveRegister reg ea => exact nested.resolveRegister reg ea
    | resolveMemory base disp ea size => exact nested.resolveMemory base disp ea size
    | dereference addr size => exact .refl _
  cases matched : self.registry.findMatch i with
  | none =>
      -- an instruction without a locator is unknown
      simp only [BackwardResolver.interpretDefinition, matched]
      exact .of_bad (.pure rfl)
  | some l =>
      have matched' : (self.withRegistry r').registry.findMatch i = some l := extended i l matched
      have surfaces := strict l (LocatorRegistry.findMatch_mem matched) self.port funcEa i dest
      simp only [BackwardResolver.interpretDefinition, matched, matched', bind_eq]
      have extracted : Improves (fun outcome => Fruitless (some outcome))
          (self.safeExtract cb l i dest funcEa)
          ((self.withRegistry r').safeExtract cb' l i dest funcEa) := by
        refine .call fun _ => ?_
        refine (Improves.interpret answers surfaces (.refl _)).bind (fun outcome fruitless => ?_)
          fun outcome => .refl _
        refine .pure ?_
        cases outcome with
        | none => trivial
        | some outcome => exact fruitless
      refine extracted.bind (fun outcome fruitless => ?_) fun outcome => ?_
      · cases outcome with
        | notApplicable => exact .pure rfl
        | resolved value => exact .pure fruitless
      · cases outcome with
        | notApplicable => exact .refl _
        | resolved value => exact .refl _

/-- More locators and better callbacks make for better definitions. -/
theorem findsBetter_settle (nested : cb.Improve cb') (funcEa : Nat)
    (find : Instruction → Option Finding) :
    FindsBetter (fun i => (find i).map (self.settle cb i funcEa))
      (fun i => (find i).map ((self.withRegistry r').settle cb' i funcEa)) := by
  intro i
  dsimp only
  cases find i with
  | none => exact .none
  | some finding =>
      refine .some ?_
      cases finding with
      | interpret operand =>
          exact interpretDefinition_improves strict extended nested i operand (some funcEa)
      | report value => exact .refl _

/-- With more locators a register query keeps its determined answer. -/
theorem resolveRegisterImpl_improves (nested : cb.Improve cb') (loops : Nat) (reg : Option Nat)
    (beforeEa : Nat) :
    Improves Undetermined (self.resolveRegisterImpl loops cb reg beforeEa)
      ((self.withRegistry r').resolveRegisterImpl loops cb' reg beforeEa) := by
  cases reg with
  | none => exact .refl _
  | some r =>
      have better (funcEa : Nat) := findsBetter_settle strict extended nested funcEa
        fun i => registerFinding self.port i r
      refine .call fun ok => ?_
      cases ok with
      | false => exact .refl (.pure budgetExceeded)
      | true =>
          refine .call fun owner => ?_
          cases owner with
          | none => exact .refl _
          | some funcEa =>
              refine .call fun cfg => ?_
              dsimp only [bind_pure_left]
              cases BackwardResolver.useBlock cfg beforeEa with
              | none =>
                  refine (scanBack_improves (better funcEa) funcEa loops _).bind ?_ fun _ => .refl _
                  intro _ given
                  rcases given with ⟨v, rfl, lost⟩
                  exact .pure lost
              | some block =>
                  refine (walkBlock_improves registerPaths RegisterPath.Lost (better funcEa)
                    (fun _ lost => lost) (fun _ lost => joinRegisterPaths_lost lost) loops loops
                    beforeEa block []).bind (fun result lost => ?_) fun result => ?_
                  · cases result with
                    | cycle => exact lost.elim
                    | value v => exact .pure lost
                  · cases result with
                    | cycle => exact .refl _
                    | value v => exact .refl _

/-- With more locators the search for a cell keeps what it has found. -/
theorem searchMemory_improves (nested : cb.Improve cb') (loops : Nat) (base : Option Nat)
    (disp : Int) (beforeEa : Nat) :
    Improves MemoryPath.Lost (self.searchMemory loops cb base disp beforeEa)
      ((self.withRegistry r').searchMemory loops cb' base disp beforeEa) := by
  refine .call fun owner => ?_
  cases owner with
  | none => exact .refl _
  | some funcEa =>
      have better (key : MemoryKey) := findsBetter_settle strict extended nested funcEa
        fun i => memoryFinding self.port i key funcEa
      refine .call fun cfg => ?_
      dsimp only [bind_pure_left]
      cases BackwardResolver.useBlock cfg beforeEa with
      | none =>
          refine (scanBack_improves (better _) funcEa loops _).bind ?_ fun scanned => ?_
          · intro _ given
            rcases given with ⟨v, rfl, lost⟩
            exact .pure lost
          · cases scanned with
            | none => exact .refl _
            | some v => exact .refl _
      | some block =>
          exact walkBlock_improves memoryPaths MemoryPath.Lost (better _) (fun _ lost => lost)
            (fun _ lost => joinMemoryPaths_lost lost) loops loops beforeEa block []

/-- With more locators a memory query keeps its determined answer. -/
theorem resolveMemoryImpl_improves (nested : cb.Improve cb') (loops : Nat) (base : Option Nat)
    (disp : Int) (beforeEa size : Nat) :
    Improves Undetermined (self.resolveMemoryImpl loops cb base disp beforeEa size)
      ((self.withRegistry r').resolveMemoryImpl loops cb' base disp beforeEa size) := by
  have fallen : Improves Undetermined (self.fallbackDereference loops cb base disp beforeEa size)
      ((self.withRegistry r').fallbackDereference loops cb' base disp beforeEa size) := by
    cases base with
    | none => exact .refl _
    | some r =>
        refine (resolveRegisterImpl_improves strict extended nested loops (some r) beforeEa).bind
          (fun baseVal lost => ?_) fun baseVal => .refl _
        obtain ⟨reason, detail, rfl⟩ := ValueLattice.isKnown_eq_false lost
        exact .pure rfl
  refine .call fun ok => ?_
  cases ok with
  | false => exact .refl (.pure budgetExceeded)
  | true =>
      refine (searchMemory_improves strict extended nested loops base disp beforeEa).bind
        (fun found lost => ?_) fun found => ?_
      · cases found with
        | value v => exact .pure lost
        | notFound => exact lost.elim
        | cycle => exact lost.elim
      · cases found with
        | value v => exact .refl _
        | notFound => exact fallen
        | cycle => exact fallen

/-- With more locators the callbacks improve at every nesting depth. -/
theorem callbacks_improve (loops depth : Nat) :
    (self.callbacks loops depth).Improve ((self.withRegistry r').callbacks loops depth) := by
  induction depth with
  | zero => exact ⟨fun _ _ => .refl _, fun _ _ _ _ => .refl _⟩
  | succ depth ih =>
      exact ⟨resolveRegisterImpl_improves strict extended ih loops,
        resolveMemoryImpl_improves strict extended ih loops⟩

/-- A query on the extended registry makes the same calls to the same known answer. -/
theorem program_improves (bound : Nat) (q : PublicQuery) :
    Improves Undetermined (self.program bound q) ((self.withRegistry r').program bound q) := by
  have nested := callbacks_improve strict extended bound bound
  cases q with
  | register reg ea => exact nested.resolveRegister (some reg) ea
  | memory base disp ea size => exact nested.resolveMemory base disp ea size
  | atInstruction ea dest =>
      refine .call fun ok => ?_
      cases ok with
      | false => exact .refl (.pure budgetExceeded)
      | true =>
          refine .call fun fetched => ?_
          cases fetched with
          | none =>
              exact .refl (.pure (ValueLattice.unknown .noDefinitionFound
                ("failed to decode " ++ hex ea)))
          | some i =>
              refine .call fun owner => ?_
              exact interpretDefinition_improves strict extended nested i dest owner

/-- With more locators every known answer stays. -/
theorem answer_extended {q : PublicQuery} {v : ValueLattice} (answered : self.answer q = some v)
    (known : v.isKnown) : (self.withRegistry r').answer q = some v := by
  rw [answer_eq, Option.map_eq_some_iff] at answered ⊢
  obtain ⟨⟨found, budget, trace⟩, ran, rfl⟩ := answered
  obtain ⟨exec, answers⟩ := run_eq_some.mp ran
  have good : ¬ Undetermined found := by
    intro lost
    rw [Undetermined, known] at lost
    cases lost
  have same := program_improves strict extended self.fuel q trace found exec good
  exact ⟨(found, budget, trace), run_eq_some.mpr ⟨same, answers⟩, rfl⟩

end Resolver

end IDAnalysister
