import IDAnalysister.Backward.Soundness
import IDAnalysister.Library.Trace
import IDAnalysister.Locators.Dispatch

/-!
# Soundness of an extended registry

What a locator owes the resolver, whoever wrote it: an instruction that the resolver does not
match leaves the place alone, and what is reported for a match holds after the instruction if
the answers it was given held before. Nothing else about the registry matters
(`resolver_explained`). The modelled forms owe that much under any registry whose additions
let them be, and so does the worked example of `extension_points.py`.
-/

namespace IDAnalysister

open Effect Prog Transfer Trace

/-! ## What a definition owes -/

/-- What instructions may do to the registers and cells. -/
abbrev Semantics (W : Nat) := Instruction → State Place W → State Place W → Prop

/-- Among the places `P`, the resolver is right about an instruction with this effect. -/
structure Explains (solver : BackwardResolver) (funcEa : Nat) {W : Nat} (P : Place → Prop)
    (i : Instruction) (effect : State Place W → State Place W → Prop) : Prop where
  frame : ∀ {p s s'}, P p → placeFinding solver.port funcEa i p = none → effect s s' → s' p = s p
  sound : ∀ {cb t p f v s s'}, P p → placeFinding solver.port funcEa i p = some f →
    Exec (solver.settle cb i funcEa f) t v → effect s s' →
    (∀ q u, P q → Asked solver.port funcEa cb t i u q → Holds u (s q)) → Holds v (s' p)

/-- The callbacks report, for any of the places and any use, only what holds on every
execution. -/
def Callbacks.SoundOn {port : IdaPort} {funcEa W : Nat} (G : ConsistentCfg port funcEa)
    (P : Place → Prop) (sem : Semantics W) (cb : Callbacks) : Prop :=
  ∀ (p : Place) {ea : Nat} {π : List Instruction} {s s' : State Place W}
    {t : List (Event Resolver)} {v : ValueLattice},
    P p → G.PathTo ea π → Along sem π s s' → HonestTrace port t →
    AnswersPlace port funcEa cb ea t v p → Holds v (s' p)

/-! ## From the instructions to the answers -/

section Sound

variable {self : BackwardResolver} {funcEa W loops : Nat} {G : ConsistentCfg self.port funcEa}
variable {P : Place → Prop} {sem : Semantics W} {cb : Callbacks} {p : Place}
variable {t : List (Event Resolver)}
variable {v : ValueLattice} {ea : Nat} {π : List Instruction} {s s' : State Place W}

/-- The value of the last definition on a path holds at its end. -/
theorem definition_explained (nested : cb.SoundOn G P sem) (chosen : P p)
    {pre post : List Instruction} {i : Instruction} (path : G.PathTo ea (pre ++ i :: post))
    (explained : ∀ j ∈ i :: post, Explains self funcEa P j (sem j))
    (clear : ∀ j ∈ post, ¬ Defines (findPlace self cb funcEa p) j)
    (execution : Along sem (pre ++ i :: post) s s') (honest : HonestTrace self.port t)
    (found : Found (findPlace self cb funcEa p) t i v) : Holds v (s' p) := by
  rcases execution.append_inv with ⟨m, toDef, fromDef⟩
  rcases fromDef.cons_inv with ⟨m', effect, rest⟩
  -- nothing behind the definition writes the place
  have kept : s' p = m' p := rest.frame (· p) fun j member u u' moved =>
    (explained j (List.mem_cons_of_mem i member)).frame chosen
      (missed_of_not_defines (clear j member)) moved
  rw [kept]
  obtain ⟨definition, t', known, sub, computed⟩ := found
  rcases Option.map_eq_some_iff.mp known with ⟨finding, placed, rfl⟩
  refine (explained i List.mem_cons_self).sound chosen placed computed effect ?_
  intro q u chosenQ asked
  cases q with
  | reg r =>
      rcases asked with ⟨t₁, inside, answered⟩
      exact nested (.reg r) chosenQ path.cut toDef
        (honest.sub fun e member => sub (inside member)) answered
  | cell k =>
      rcases asked with ⟨base, disp, size, location, t₁, inside, answered⟩
      exact nested (.cell k) chosenQ path.cut toDef
        (honest.sub fun e member => sub (inside member)) ⟨base, disp, size, location, answered⟩

/-- Whatever the walk of a use reports covers the word at the place. -/
theorem walk_explained {ρ : Type} (paths : Paths ρ) (loops : Nat) (cov : ρ → Prop)
    (nested : cb.SoundOn G P sem)
    (explained : ∀ b ∈ G.cfg.blocks, ∀ i ∈ G.tile b, Explains self funcEa P i (sem i))
    (origin : G.cfg.predecessors G.entry = []) (chosen : P p)
    (path : G.PathTo ea π) (execution : Along sem π s s') (honest : HonestTrace self.port t)
    (refused : cov (paths.ofValue budgetExceeded))
    (joins : ∀ results r, r ∈ results → cov r → cov (paths.join results))
    (source : cov paths.noPredecessor) (values : ∀ u, Holds u (s' p) → cov (paths.ofValue u)) :
    ∃ b ∈ G.cfg.blocks, b.startEa ≤ ea ∧ ea < b.endEa ∧ ∀ (bound : Nat) (w : ρ) t' (_ : t' ⊆ t),
      Exec (walkBlock paths self.port G.cfg (findPlace self cb funcEa p) loops bound ea b []) t' w →
        cov w := by
  rcases path.last (Defines (findPlace self cb funcEa p)) origin with
    ⟨b, hb, lo, hi, ⟨-, unwritten⟩ | ⟨pre, i, post, rfl, -, clear, last⟩⟩
  · refine ⟨b, hb, lo, hi, fun bound w t' sub walked => ?_⟩
    exact covers_of_unwritten cov refused joins hb lo hi.le unwritten (honest.sub sub) walked source
  · refine ⟨b, hb, lo, hi, fun bound w t' sub walked => ?_⟩
    refine covers_of_lastDef cov refused joins hb lo hi.le last (honest.sub sub) walked ?_
    intro u found
    have onPath (j : Instruction) (member : j ∈ i :: post) :
        Explains self funcEa P j (sem j) := by
      rcases path.mem_tile (List.mem_append_right pre member) with ⟨c, hc, inTile⟩
      exact explained c hc j inTile
    exact values u (definition_explained nested chosen path onPath clear execution
      (honest.sub sub) found)

variable (explained : ∀ b ∈ G.cfg.blocks, ∀ i ∈ G.tile b, Explains self funcEa P i (sem i))
variable (source : G.cfg.predecessors G.entry = [])
include explained source

theorem resolveRegisterImpl_explained (nested : cb.SoundOn G P sem) {q : Nat}
    (chosen : P (.reg q)) (path : G.PathTo ea π) (execution : Along sem π s s')
    (honest : HonestTrace self.port t)
    (answered : Exec (self.resolveRegisterImpl loops cb (some q) ea) t v) :
    Holds v (s' (.reg q)) := by
  have refusal : Holds budgetExceeded (s' (.reg q)) :=
    .of_not_concrete (by simp [budgetExceeded]) _
  rcases walk_explained (p := .reg q) registerPaths loops
    (RegisterPath.Covers (s' (.reg q))) nested explained source chosen path execution honest
    ⟨_, rfl, refusal⟩ RegisterPath.covers_join ⟨_, rfl, .of_not_concrete (by simp) _⟩
    (fun u holds => ⟨u, rfl, holds⟩) with ⟨b, hb, lo, hi, covers⟩
  rcases resolveRegisterImpl_cases hb lo hi honest answered with
    ⟨-, rfl⟩ | ⟨t₁, sub, w, walked, value⟩
  · exact refusal
  · rcases covers loops w t₁ sub walked with ⟨u, rfl, holds⟩
    rcases value with same | ⟨looped, -⟩
    · cases same
      exact holds
    · cases looped

theorem resolveMemoryImpl_explained (nested : cb.SoundOn G P sem) {base : Option Nat} {disp : Int}
    {size : Nat} {k : MemoryKey} (location : memoryLocation self.port base disp ea funcEa = k)
    (chosen : P (.cell k)) (path : G.PathTo ea π) (execution : Along sem π s s')
    (honest : HonestTrace self.port t)
    (answered : Exec (self.resolveMemoryImpl loops cb base disp ea size) t v) :
    Holds v (s' (.cell k)) := by
  have refusal : Holds budgetExceeded (s' (.cell k)) :=
    .of_not_concrete (by simp [budgetExceeded]) _
  rcases walk_explained (p := .cell k) memoryPaths loops
    (MemoryPath.Covers (s' (.cell k))) nested explained source chosen path execution honest
    (Or.inr ⟨_, rfl, refusal⟩) MemoryPath.covers_join (Or.inl rfl)
    (fun u holds => Or.inr ⟨u, rfl, holds⟩) with ⟨b, hb, lo, hi, covers⟩
  rcases resolveMemoryImpl_cases hb lo hi honest answered with
    ⟨-, rfl⟩ | ⟨t₁, sub, w, walked, value⟩
  · exact refusal
  · rw [location] at walked
    rcases value with rfl | ⟨-, t₂, -, fallback⟩
    · rcases covers loops _ t₁ sub walked with missing | ⟨u, same, holds⟩
      · cases missing
      · cases same
        exact holds
    · exact .of_not_concrete (fallbackDereference_silent fallback) _

/-- Callbacks are sound at every nesting depth. -/
theorem callbacks_explained (loops depth : Nat) : (self.callbacks loops depth).SoundOn G P sem := by
  induction depth with
  | zero =>
      intro p ea π s s' t v _ _ _ _ answered
      cases p with
      | reg r => exact (not_exec_diverge answered).elim
      | cell k =>
          rcases answered with ⟨_, _, _, _, answered⟩
          exact (not_exec_diverge answered).elim
  | succ depth ih =>
      intro p ea π s s' t v chosen path execution honest answered
      cases p with
      | reg r =>
          exact resolveRegisterImpl_explained explained source ih chosen path execution honest
            answered
      | cell k =>
          rcases answered with ⟨base, disp, size, location, answered⟩
          exact resolveMemoryImpl_explained explained source ih location chosen path execution
            honest answered

end Sound

/-! ## What the locators owe -/

section Locators

variable {self : BackwardResolver} {funcEa W : Nat} {P : Place → Prop} {i : Instruction}
variable {effect : State Place W → State Place W → Prop}

/-- Only the match for the instruction matters of a registry. -/
theorem Explains.congr (explains : Explains self funcEa P i effect) {r : LocatorRegistry}
    (same : r.findMatch i = self.registry.findMatch i) :
    Explains { self with registry := r } funcEa P i effect := by
  refine ⟨explains.frame, ?_⟩
  intro cb t p f v s s' chosen found run moved held
  have settled : Exec (self.settle cb i funcEa f) t v := by
    cases f with
    | report value => exact run
    | interpret operand =>
        rw [BackwardResolver.settle, BackwardResolver.interpretDefinition] at run ⊢
        rw [same] at run
        exact run
  exact explains.sound chosen found settled moved held

/-- An instruction of a modelled form does what the form stands for, and moves nothing into
the places `P` from outside them. -/
def FormStep (port : IdaPort) (funcEa W : Nat) (P : Place → Prop) : Semantics W := fun i s s' =>
  ∃ op, Form port funcEa W i op ∧ (∀ p q, P p → op.Copies p q → P q) ∧ op.Step s s'

/-- The modelled forms are explained by the built-in locators. -/
theorem explains_formStep (builtin : self.registry = defaultRegistry) (positive : 0 < W)
    (le : W ≤ 64) (supported : ∀ p, P p → Supported self.port W p) :
    Explains self funcEa P i (FormStep self.port funcEa W P i) := by
  constructor
  · rintro p s s' chosen missed ⟨op, form, -, step⟩
    exact step.frame (form_frame form (supported p chosen) missed)
  · rintro cb t p f v s s' chosen found run ⟨op, form, closed, step⟩ held
    cases form_computes builtin positive le form (supported p chosen) found run with
    | silent silent => exact .of_not_concrete silent _
    | const n sets nonneg lt same =>
        rcases same with ⟨k, rfl⟩
        rw [sets s s' step]
        exact holds_ofInt nonneg lt k
    | copied q n base copies _ sets asked carries =>
        rw [sets s s' step]
        exact carries _ (held q base (closed p q chosen copies) asked)

/-- A form moves words between whole registers and cells only. -/
theorem form_copies_supported {port : IdaPort} {op : Op Place} (form : Form port funcEa W i op)
    {p q : Place} (copies : op.Copies p q) : Supported port W q := by
  cases form with
  | register form =>
      cases form with
      | movReg mnem pair dest src =>
          obtain ⟨-, rfl⟩ := copies
          exact src.whole
      | leaDispl mnem pair dest shape reg whole =>
          obtain ⟨-, rfl⟩ := copies
          exact whole
      | addImm mnem pair dest =>
          obtain ⟨-, rfl⟩ := copies
          exact dest.whole
      | subImm mnem pair dest =>
          obtain ⟨-, rfl⟩ := copies
          exact dest.whole
      | xchg mnem pair left right =>
          rcases copies with ⟨-, rfl⟩ | ⟨-, rfl⟩
          · exact left.whole
          · exact right.whole
      | movImm => exact copies.elim
      | leaAddr => exact copies.elim
      | zero => exact copies.elim
      | cmov => exact copies.elim
      | call => exact copies.elim
      | unmatched => exact copies.elim
  | storeImm => exact copies.elim
  | storeReg mnem pair dest src =>
      obtain ⟨-, rfl⟩ := copies
      exact src.whole
  | load =>
      obtain ⟨-, rfl⟩ := copies
      trivial

theorem along_of_forms {port : IdaPort} {π : List Instruction} {ops : List (Op Place)}
    {s s' : State Place W} (forms : List.Forall₂ (Form port funcEa W) π ops) (run : Run ops s s') :
    Along (FormStep port funcEa W (Supported port W)) π s s' := by
  induction forms generalizing s with
  | nil =>
      obtain rfl := run
      exact .nil _
  | @cons i op π ops form _ ih =>
      rcases run with ⟨m, step, rest⟩
      exact .cons ⟨op, form, fun p q _ => form_copies_supported form, step⟩ (ih rest)

/-- A locator is judged by what it extracts: the other findings report nothing concrete. -/
theorem explains_of_locator {l : Locator} (matched : self.registry.findMatch i = some l)
    (frame : ∀ {p s s'}, P p → placeFinding self.port funcEa i p = none → effect s s' →
      s' p = s p)
    (extracted : ∀ {cb t p dest outcome s s'}, P p →
      placeFinding self.port funcEa i p = some (.interpret dest) →
      Exec (Prog.interpret (self.answerCallback cb) (l.extract self.port (some funcEa) i dest)) t
        outcome → effect s s' → (∀ q u, P q → Asked self.port funcEa cb t i u q → Holds u (s q)) →
      Holds (verdict i outcome) (s' p)) :
    Explains self funcEa P i effect := by
  refine ⟨frame, ?_⟩
  intro cb t p f v s s' chosen found run moved held
  cases f with
  | report value => exact .of_not_concrete (silent_report found run) _
  | interpret dest =>
      rcases exec_interpretDefinition matched run with ⟨t', sub, outcome, extraction, rfl⟩
      refine extracted chosen found extraction moved fun q u chosenQ asked => ?_
      refine held q u chosenQ ?_
      cases q with
      | reg r =>
          rcases asked with ⟨t₁, inside, answered⟩
          exact ⟨t₁, fun e member => sub (inside member), answered⟩
      | cell k =>
          rcases asked with ⟨base, disp, size, location, t₁, inside, answered⟩
          exact ⟨base, disp, size, location, t₁, fun e member => sub (inside member), answered⟩

end Locators

/-! ## Callers that push -/

/-- Registers other than the stack pointer, and cells that are not named from it. -/
def OffStack (port : IdaPort) (W : Nat) : Place → Prop
  | .reg r => WholeReg port W r ∧ port.stackPointerReg ≠ some r
  | .cell k => k.1 ≠ .sp ∧ ∀ ea, k.1 ≠ .spUnknown ea

/-- A form that takes nothing from the stack, or a push, which changes nothing off the stack
and is flagged as writing none of its operands. -/
inductive CallerStep (port : IdaPort) (funcEa W : Nat) (i : Instruction) (s s' : State Place W) :
    Prop
  | form : FormStep port funcEa W (OffStack port W) i s s' → CallerStep port funcEa W i s s'
  | push : i.mnem = "push" → (∀ op ∈ i.operands, i.isWritten op.number = false) →
    (∀ p, OffStack port W p → s' p = s p) → CallerStep port funcEa W i s s'

theorem explains_callerStep {self : BackwardResolver} {funcEa W : Nat} {i : Instruction}
    (builtin : self.registry = defaultRegistry) (positive : 0 < W) (le : W ≤ 64) :
    Explains self funcEa (OffStack self.port W) i (CallerStep self.port funcEa W i) := by
  have supported : ∀ p, OffStack self.port W p → Supported self.port W p := by
    intro p off
    cases p with
    | reg r => exact off.1
    | cell k => trivial
  have form : Explains self funcEa (OffStack self.port W) i
      (FormStep self.port funcEa W (OffStack self.port W) i) :=
    explains_formStep builtin positive le supported
  constructor
  · intro p s s' off missed step
    cases step with
    | form moved => exact form.frame off missed moved
    | push mnem unwritten kept => exact kept p off
  · intro cb t p f v s s' off found run step held
    cases step with
    | form moved => exact form.sound off found run moved held
    | push mnem unwritten kept =>
        -- a push is matched for no place
        have notCall : i.isCall = false := not_isCall_of_mnem mnem (by decide)
        cases p with
        | reg q =>
            rw [placeFinding, registerFinding_quiet notCall fun op member _ => unwritten op member]
              at found
            cases found
        | cell k =>
            rw [placeFinding, memoryFinding_quiet fun op member _ => unwritten op member] at found
            cases found

/-! ## Answers -/

/-- A function whose every instruction the resolver is right about, among some places. -/
structure ExplainedFunction (solver : BackwardResolver) (W : Nat) where
  funcEa : Nat
  graph : ConsistentCfg solver.port funcEa
  source : graph.cfg.predecessors graph.entry = []
  places : Place → Prop
  sem : Semantics W
  explained : ∀ b ∈ graph.cfg.blocks, ∀ i ∈ graph.tile b,
    Explains solver funcEa places i (sem i)

namespace ExplainedFunction

variable {self : BackwardResolver} {W : Nat} (f : ExplainedFunction self W)

/-- The word at the place is `d`, whenever an execution from the entry gets to `ea`. -/
def Always (ea : Nat) (p : Place) (d : Datum) : Prop :=
  ∀ π s s', f.graph.PathTo ea π → Along f.sem π s s' → d = .int (s' p).toNat

/-- What an operand of `i` stands for is `d`, whenever an execution gets to `i`. -/
structure OperandIs (i : Instruction) (op : Operand) (d : Datum) : Prop where
  immediate : ∀ n, op.kind = .immediate → op.immValue = some n → d = .int n
  register : ∀ r, op.kind = .reg → op.reg = some r → f.places (.reg r) → f.Always i.ea (.reg r) d
  cell : ∀ k, CellOperand self.port f.funcEa i.ea op k → f.places (.cell k) →
    f.Always i.ea (.cell k) d

variable {f} {ea : Nat} {d : Datum} {k : ValueKind}

theorem always_register {r : Nat} (chosen : f.places (.reg r))
    (answer : self.resolveRegister r ea = some (.concrete d k)) : f.Always ea (.reg r) d := by
  intro π s s' path execution
  rcases Option.map_eq_some_iff.mp answer with ⟨⟨v, budget, trace⟩, ran, same⟩
  rcases run_eq_some.mp ran with ⟨exec, answered⟩
  have sound := callbacks_explained f.explained f.source self.fuel self.fuel
  exact sound (.reg r) chosen path execution (honest_of_answers answered) exec d k same

theorem always_cell {base : Option Nat} {disp : Int} {size : Nat} {cell : MemoryKey}
    (located : memoryLocation self.port base disp ea f.funcEa = cell)
    (chosen : f.places (.cell cell))
    (answer : self.resolveMemory base disp ea size = some (.concrete d k)) :
    f.Always ea (.cell cell) d := by
  intro π s s' path execution
  rcases Option.map_eq_some_iff.mp answer with ⟨⟨v, budget, trace⟩, ran, same⟩
  rcases run_eq_some.mp ran with ⟨exec, answered⟩
  have sound := callbacks_explained f.explained f.source self.fuel self.fuel
  exact sound (.cell cell) chosen path execution (honest_of_answers answered)
    ⟨base, disp, size, located, exec⟩ d k same

end ExplainedFunction

/-- Whatever is registered: if the resolver is right about every instruction of a function on
its own, then a concrete answer for a register or for a memory cell is the word there, on every
execution from the entry to the use, whatever the limits and however often the execution goes
round a loop. -/
theorem resolver_explained (self : BackwardResolver) {W : Nat} (f : ExplainedFunction self W)
    {ea : Nat} {d : Datum} {k : ValueKind} :
    (∀ r, f.places (.reg r) → self.resolveRegister r ea = some (.concrete d k) →
      f.Always ea (.reg r) d) ∧
    (∀ base disp size cell, memoryLocation self.port base disp ea f.funcEa = cell →
      f.places (.cell cell) → self.resolveMemory base disp ea size = some (.concrete d k) →
      f.Always ea (.cell cell) d) :=
  ⟨fun _ chosen answer => f.always_register chosen answer,
    fun _ _ _ _ located chosen answer => f.always_cell located chosen answer⟩

theorem operandIs_of_push {self : BackwardResolver} {W : Nat} (f : ExplainedFunction self W)
    {i : Instruction} {op : Operand} (first : i.operand 0 = some op) {owner : Option Nat}
    {t : List (Event Resolver)} {outcome : Option LocatorOutcome} {d : Datum} {k : ValueKind}
    (honest : HonestTrace self.port t) (extracted : Exec (Prog.interpret
      (self.answerCallback (self.callbacks self.fuel self.fuel))
      (pushLocator.extract self.port owner i 0)) t outcome)
    (same : ValueLattice.concrete d k = verdict i outcome) : f.OperandIs i op d := by
  have sound := callbacks_explained f.explained f.source self.fuel self.fuel
  constructor
  · intro n immediate value
    rw [show pushLocator.extract self.port owner i 0 = Extraction.resolved
      (.concrete (.int n) .int) by simp [pushLocator, withOperand, first, immediate, value,
        Datum.ofOption]] at extracted
    rw [exec_resolved extracted] at same
    exact (ValueLattice.concrete.inj same).1
  · intro r register named chosen π s s' path execution
    rw [pushLocator_extract_reg first register, named] at extracted
    rcases exec_relay (i := i) (f := fun u => u) extracted with ⟨t', sub, u, asked, value⟩
    exact sound (.reg r) chosen path execution (honest.sub sub) asked d k
      (value.symm.trans same.symm)
  · intro cell located chosen π s s' path execution
    have memory := located.isMemory
    have notReg : op.kind ≠ .reg := Operand.kind_ne_reg_of_isMemory memory
    have notImm : op.kind ≠ .immediate := kind_ne_immediate_of_isMemory memory
    rw [show pushLocator.extract self.port owner i 0 =
      (loadMemoryOperand self.port op i.ea).bind Extraction.resolved by
        simp [pushLocator, withOperand, first, notReg, notImm, memory]] at extracted
    rcases exec_loadMemoryOperand located extracted with
      ⟨base, disp, size, location, t', sub, u, asked, value⟩
    exact sound (.cell cell) chosen path execution (honest.sub sub)
      ⟨base, disp, size, location, asked⟩ d k (value.symm.trans same.symm)

/-- A concrete answer for a push is what the pushed operand stands for. -/
theorem push_explained (self : BackwardResolver) {ea : Nat} {d : Datum} {k : ValueKind}
    (answer : self.resolveAtInstruction ea 0 = some (.concrete d k)) :
    ∃ i, self.port.decodeAt ea = some i ∧ (self.registry.findMatch i = some pushLocator →
      ∃ op, i.operand 0 = some op ∧
        ∀ {W : Nat} (f : ExplainedFunction self W), f.OperandIs i op d) := by
  rcases Option.map_eq_some_iff.mp answer with ⟨⟨v, budget, trace⟩, ran, rfl⟩
  rcases run_eq_some.mp ran with ⟨exec, answered⟩
  have honest := honest_of_answers answered
  simp only [BackwardResolver.instructionQuery, BackwardResolver.resolveAtInstructionImpl, bind_eq,
    Query.step_bind, Query.get_bind, Query.funcEaFor_bind] at exec
  rcases exec_call.mp exec with ⟨ok, t₁, rfl, stepped⟩
  cases ok with
  | false =>
      rw [if_neg Bool.false_ne_true] at stepped
      rcases exec_pure.mp stepped with ⟨-, never⟩
      cases never
  | true =>
      rw [if_pos rfl] at stepped
      rcases exec_call.mp stepped with ⟨fetched, t₂, rfl, got⟩
      have decoded : fetched = self.port.decodeAt ea := honest ⟨.get ea, fetched⟩ (by simp)
      subst decoded
      cases decoded : self.port.decodeAt ea with
      | none =>
          rw [decoded] at got
          rcases exec_pure.mp got with ⟨-, never⟩
          cases never
      | some i =>
          rw [decoded] at got
          rcases exec_call.mp got with ⟨owner, t₃, rfl, interpreted⟩
          refine ⟨i, rfl, fun matched => ?_⟩
          rcases exec_interpretDefinition matched interpreted with
            ⟨t', sub, outcome, extracted, same⟩
          have honest' : HonestTrace self.port t' := honest.sub fun e member => by simp [sub member]
          cases first : i.operand 0 with
          | none =>
              rw [show pushLocator.extract self.port owner i 0 = Extraction.raised by
                simp [pushLocator, withOperand, first]] at extracted
              rcases exec_pure.mp extracted with ⟨-, rfl⟩
              cases same
          | some op => exact ⟨op, rfl, fun f => operandIs_of_push f first honest' extracted same⟩

/-- Once round the loop, `esi` still holds what the resolver reports. -/
theorem resolver_explained_countedLoop :
    Datum.int 0x404000 = .int (Function.update (fun _ => 0#32) (.reg 6) (BitVec.ofInt 32 0x404000)
      (Place.reg 6)).toNat := by
  let self : BackwardResolver := ⟨CountedLoop.port, defaultRegistry, 200, 64⟩
  let f : ExplainedFunction self 32 :=
    { funcEa := 0x401000
      graph := CountedLoop.graph
      source := by decide
      places := Supported CountedLoop.port 32
      sem := FormStep CountedLoop.port 0x401000 32 (Supported CountedLoop.port 32)
      explained := fun _ _ _ _ =>
        explains_formStep rfl (by decide) (by decide) fun _ supported => supported }
  rcases CountedLoop.executes fun _ => 0#32 with ⟨ops, forms, run⟩
  have execution := along_of_forms (forms.imp fun _ _ form => .register form) run
  exact (resolver_explained self f).1 6 (FakeIdaPort.wholeReg rfl (by decide))
    (show _ = some (ValueLattice.concrete (.int 0x404000) .int) by decide) _ _ _ CountedLoop.once
    execution

end IDAnalysister
