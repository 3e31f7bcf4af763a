import IDAnalysister.Backward.Refusal
import IDAnalysister.Backward.Straight

/-!
# Chains of definitions

A definition is interpreted by queries for what stands just before it, so what is reported
behind a row of instructions goes back over it definition by definition. `Chain.reports` is
this induction: where each instruction reports what it makes of the reports before it, so does
the row.
-/

namespace IDAnalysister

open Effect Prog

/-- Up to an instruction of the row, the row is a straight line too. -/
def StraightLine.upTo {port : IdaPort} {is pre post : List Instruction} {i : Instruction}
    {use : Nat} (line : StraightLine port is use) (split : is = pre ++ i :: post) :
    StraightLine port pre i.ea where
  funcEa := line.funcEa
  graph := line.graph
  source := line.source
  lo := by
    have member : i ∈ before (line.graph.tile line.graph.entry) use := by
      rw [line.executed, split]
      simp
    exact ((line.graph.tiled _ line.graph.entry_mem).bounds (mem_of_before member)).1
  hi := by
    have member : i ∈ before (line.graph.tile line.graph.entry) use := by
      rw [line.executed, split]
      simp
    exact ((line.graph.tiled _ line.graph.entry_mem).bounds (mem_of_before member)).2
  executed := by
    rcases (line.graph.tiled _ line.graph.entry_mem).before_extends use with ⟨rest, whole⟩
    rw [line.executed] at whole
    have inside : line.graph.tile line.graph.entry = pre ++ i :: (post ++ rest) := by
      rw [← whole]
      simp [split]
    exact line.graph.before_split line.graph.entry_mem inside

/-- With enough budget and nesting for `n` instructions, the query returns one of the values. -/
def Yields (port : IdaPort) (n : Nat) (P : ValueLattice → Prop)
    (query : Nat → Nat → Query ValueLattice) : Prop :=
  ∃ v cost, P v ∧ cost ≤ 2 * (n + 1) ∧ ∀ loops depth (b : ResolutionBudget), n < loops →
    n < depth → b.stepsUsed + 2 * (n + 1) ≤ b.maxSteps →
      attempt (handler port) none (query loops depth) b = (some v, b.spend cost)

/-- What is reported for registers used at `ea`, behind `n` instructions. -/
def Reports (self : BackwardResolver) (W n ea : Nat) (P : Nat → ValueLattice → Prop) : Prop :=
  ∀ q, WholeReg self.port W q → Yields self.port n (P q) fun loops depth =>
    (self.callbacks loops depth).resolveRegister (some q) ea

section Relay

variable {self : BackwardResolver} {i : Instruction}

/-- An extraction that asks once and makes something of the answer. -/
theorem attempt_relay {l : Locator} {fe : Option Nat} {dest : Nat} {o : Callback.Op}
    {cb : Callbacks} {f : ValueLattice → ValueLattice} {v : ValueLattice} {b b' : ResolutionBudget}
    (matched : self.registry.findMatch i = some l)
    (extracted : l.extract self.port fe i dest = .call o fun r => Extraction.resolved (f r))
    (asked : attempt (handler self.port) none (self.answerCallback cb o) b = (some v, b')) :
    attempt (handler self.port) none (self.interpretDefinition cb i dest fe) b =
      (some (f v), b') := by
  have relayed : attempt (handler self.port) none (interpret (self.answerCallback cb)
      (l.extract self.port fe i dest)) b = (some (some (.resolved (f v))), b') := by
    rw [extracted]
    exact attempt_bind (f := fun r => interpret
      (self.answerCallback cb) (Extraction.resolved (f r)))
      asked
  have safe : attempt (handler self.port) none (self.safeExtract cb l i dest fe) b =
      (some (.resolved (f v)), b') := by
    change attempt _ none ((interpret (self.answerCallback cb) (l.extract self.port fe i dest)).bind
      fun outcome => .pure (outcome.getD .notApplicable)) b = _
    rw [attempt_bind relayed]
    rfl
  rw [BackwardResolver.interpretDefinition, matched]
  exact attempt_bind safe

variable {W n r dest funcEa : Nat} {P : Nat → ValueLattice → Prop} {Q : ValueLattice → Prop}
variable {l : Locator} {f : ValueLattice → ValueLattice} {v : ValueLattice}

theorem Yields.of_decides {finding : Finding} (decides : Decides self i funcEa finding v)
    (holds : Q v) : Yields self.port n Q fun loops depth =>
      self.settle (self.callbacks loops depth) i funcEa finding :=
  ⟨v, 0, holds, Nat.zero_le _, fun _ _ b _ _ _ => decides self.maxSteps self.maxBlocks _ b⟩

/-- A definition that asks for one register. -/
theorem Reports.relay (reports : Reports self W n i.ea P) (whole : WholeReg self.port W r)
    (matched : self.registry.findMatch i = some l)
    (extracted : l.extract self.port (some funcEa) i dest =
      .call (.resolveRegister (some r) i.ea) fun v => Extraction.resolved (f v))
    (makes : ∀ v, P r v → Q (f v)) : Yields self.port n Q fun loops depth =>
      self.settle (self.callbacks loops depth) i funcEa (.interpret dest) := by
  rcases reports r whole with ⟨v, cost, value, le, asked⟩
  refine ⟨f v, cost, makes v value, le, ?_⟩
  intro loops depth b deep nested left
  exact attempt_relay matched extracted (asked loops depth b deep nested left)

/-- A definition that asks for a global, where no instruction writes memory. -/
theorem Yields.load {pre : List Instruction} (line : StraightLine self.port pre i.ea)
    (quiet : ∀ j ∈ pre, ∀ key, memoryFinding self.port j key line.funcEa = none)
    (matched : self.registry.findMatch i = some l) {addr : Int} {size : Nat}
    (extracted : l.extract self.port (some line.funcEa) i dest =
      .call (.resolveMemory none addr i.ea size) fun v => Extraction.resolved (f v))
    (holds : Q (f (dereferenced self.port addr size))) :
    Yields self.port pre.length Q fun loops depth =>
      self.settle (self.callbacks loops depth) i line.funcEa (.interpret dest) := by
  refine ⟨_, pre.length + 1 + 1, holds, by omega, ?_⟩
  intro loops depth b deep nested left
  refine attempt_relay matched extracted ?_
  cases depth with
  | zero => omega
  | succ depth =>
      have walked := @StraightLine.memoryImpl_clear self pre i.ea (self.callbacks loops depth) loops
        b line none addr size (fun j member => quiet j member _) deep (by omega)
      have left' : (b.spend (pre.length + 1)).stepsUsed + 1 ≤
          (b.spend (pre.length + 1)).maxSteps := by
        simp only [ResolutionBudget.spend]
        omega
      rw [← ResolutionBudget.spend_spend]
      refine walked.trans (attempt_dereference.trans ?_)
      rw [if_pos left', ResolutionBudget.step_spend left']

end Relay

section Answer

variable {self : BackwardResolver} {n q use : Nat} {P : ValueLattice → Prop}

/-- With enough budget the register is answered. -/
theorem Yields.answer (yields : Yields self.port n P fun loops depth =>
      (self.callbacks loops depth).resolveRegister (some q) use)
    (enough : 2 * (n + 1) ≤ self.maxSteps) :
    ∃ v, P v ∧ self.answer (.register q use) = some v := by
  rcases yields with ⟨v, cost, value, le, asked⟩
  have bounded : n < self.fuel := by
    simp only [BackwardResolver.fuel]
    omega
  refine ⟨v, value,
    answer_of_attempt (asked self.fuel self.fuel self.freshBudget bounded bounded ?_)⟩
  simpa [BackwardResolver.freshBudget] using enough

/-- A known answer of any limits is the one that enough budget gives. -/
theorem known_of_yields (builtin : self.registry = defaultRegistry)
    (yields : ∀ steps, Yields self.port n P fun loops depth =>
      ((self.withLimits steps self.maxBlocks).callbacks loops depth).resolveRegister (some q) use)
    {v : ValueLattice} (known : v.isKnown) (answered : self.answer (.register q use) = some v) :
    P v := by
  have larger := answer_withLimits (strict_of_builtin builtin)
    (Nat.le_add_right self.maxSteps (2 * (n + 1))) (Nat.le_refl _) known answered
  rcases @Yields.answer (self.withLimits (self.maxSteps + 2 * (n + 1)) self.maxBlocks) n q use P
    (yields _) (Nat.le_add_left _ _) with ⟨u, value, answered'⟩
  rw [larger] at answered'
  obtain rfl := Option.some.inj answered'
  exact value

end Answer

/-- The operand is the word at a static address. -/
structure GlobalOperand (op : Operand) (addr : Int) : Prop where
  kind : op.kind = .memDirect
  addr : op.addr = some addr
  noIndex : op.hasIndex = false
  noSegment : op.hasSegment = false
  sized : 0 < op.dtypeSize

theorem GlobalOperand.isMemory {op : Operand} {addr : Int} (operand : GlobalOperand op addr) :
    op.isMemory = true := by
  simp [Operand.isMemory, operand.kind]

theorem GlobalOperand.load_eq {op : Operand} {addr : Int} (operand : GlobalOperand op addr)
    (port : IdaPort) (ea : Nat) : (loadMemoryOperand port op ea).bind Extraction.resolved =
      .call (.resolveMemory none addr ea op.dtypeSize) fun v => Extraction.resolved v := by
  have noIndex : op.indexReg = none := by simpa [Operand.hasIndex] using operand.noIndex
  have addressed : unsupportedAddressShape op = none := by
    simp [unsupportedAddressShape, noIndex, operand.noSegment]
  have sized : op.dtypeSize ≠ 0 := operand.sized.ne'
  rw [loadMemoryOperand, addressed]
  simp only [operand.kind, dif_pos, sized, if_false, operand.addr, Option.get_some]
  rfl

section Definitions

variable {self : BackwardResolver} {W n r funcEa : Nat} {i : Instruction} {a b : Operand}
variable {P : Nat → ValueLattice → Prop} {Q : ValueLattice → Prop}

/-- A copy is reported as its source is. -/
theorem Reports.copied (reports : Reports self W n i.ea P)
    (builtin : self.registry = defaultRegistry) (move : i.mnem ∈ moveMnemonics)
    (pair : Pair i a b true false) (dest : a.kind = .reg) (src : b.kind = .reg)
    (reg : b.reg = some r) (whole : WholeReg self.port W r) (makes : ∀ v, P r v → Q v) :
    Yields self.port n Q fun loops depth =>
      self.settle (self.callbacks loops depth) i funcEa (.interpret 0) := by
  have matched := findMatch_moveReg move pair dest src
  rw [← builtin] at matched
  refine reports.relay (f := fun v => v) whole matched ?_ makes
  rw [movRegReg_extract pair.operand_one, reg]

/-- An immediate is added to what is reported for the register. -/
theorem Reports.added (reports : Reports self W n i.ea P)
    (builtin : self.registry = defaultRegistry) (mnem : i.mnem = "add" ∨ i.mnem = "sub")
    (pair : Pair i a b true false) (dest : RegOperand self.port W a r) {x δ : Int}
    (imm : ImmOperand W b x) (signed : (if i.mnem = "add" then x else -x) = δ)
    (makes : ∀ v, P r v → Q (addSubValue v δ a.dtypeSize)) :
    Yields self.port n Q fun loops depth =>
      self.settle (self.callbacks loops depth) i funcEa (.interpret 0) := by
  have matched := findMatch_addSub mnem pair dest.kind imm.kind
  rw [← builtin] at matched
  have amount : addSubDelta i b = some δ := by
    rw [addSubDelta, imm.value, Option.map_some, signed]
  refine reports.relay (f := fun v => addSubValue v δ a.dtypeSize) dest.whole matched ?_ makes
  rw [addSubRegImm_extract pair.operand_zero pair.operand_one amount, dest.reg]

/-- A load from a static address is reported as the image has it. -/
theorem Yields.loaded (builtin : self.registry = defaultRegistry) {pre : List Instruction}
    (line : StraightLine self.port pre i.ea)
    (quiet : ∀ j ∈ pre, ∀ key, memoryFinding self.port j key line.funcEa = none)
    (move : i.mnem ∈ moveMnemonics) (pair : Pair i a b true false) (dest : a.kind = .reg)
    {addr : Int} (src : GlobalOperand b addr)
    (holds : Q (dereferenced self.port addr b.dtypeSize)) :
    Yields self.port pre.length Q fun loops depth =>
      self.settle (self.callbacks loops depth) i line.funcEa (.interpret 0) := by
  have matched := findMatch_moveRegMem move pair dest src.isMemory
  rw [← builtin] at matched
  have asks : movRegMem.extract self.port (some line.funcEa) i 0 =
      .call (.resolveMemory none addr i.ea b.dtypeSize) fun v => Extraction.resolved v := by
    rw [movRegMem_extract pair.operand_one, src.load_eq]
  exact Yields.load (f := fun v => v) line quiet matched asks holds

end Definitions

/-! ## A row of definitions -/

/-- The instructions of a form make of what is reported for the registers what `after` says. -/
structure Chain (resolver : BackwardResolver) (W : Nat) {T O : Type} (form : Instruction → T → Prop)
    (after : T → (Nat → O) → Nat → O) (shown : O → ValueLattice → Prop) (start : O) : Prop where
  unset : shown start (.unknown' .noDefinitionFound)
  each : ∀ {pre : List Instruction} {ts : List T} {i : Instruction} {t : T},
    List.Forall₂ form pre ts → form i t → ∀ (line : StraightLine resolver.port pre i.ea) (q : Nat),
      WholeReg resolver.port W q →
        (registerFinding resolver.port i q = none ∧ ∀ B, after t B q = B q) ∨
        ∃ f, registerFinding resolver.port i q = some f ∧ ∀ B,
          Reports resolver W pre.length i.ea (fun q => shown (B q)) →
          Yields resolver.port pre.length (shown (after t B q)) fun loops depth =>
            resolver.settle (resolver.callbacks loops depth) i line.funcEa f

namespace Chain

variable {self : BackwardResolver} {W use q : Nat} {T O : Type} {form : Instruction → T → Prop}
variable {after : T → (Nat → O) → Nat → O} {shown : O → ValueLattice → Prop} {start : O}
variable {is pre post : List Instruction} {ts ts' : List T} {B : Nat → O}

/-- Instructions that do not define the register leave what is reported for it. -/
theorem kept (chain : Chain self W form after shown start) (early : List.Forall₂ form pre ts)
    (late : List.Forall₂ form post ts') (line : StraightLine self.port (pre ++ post) use)
    (whole : WholeReg self.port W q) (clear : ∀ j ∈ post, registerFinding self.port j q = none) :
    ts'.foldl (fun B t => after t B) B q = B q := by
  induction late generalizing pre ts B with
  | nil => rfl
  | @cons j t post ts' here _ ih =>
      rcases chain.each early here (line.upTo rfl) q whole with ⟨-, same⟩ | ⟨f, found, -⟩
      · have next := @ih (pre ++ [j]) (ts ++ [t]) (after t B)
          (List.rel_append early (.cons here .nil)) (by simpa using line)
          (fun k member => clear k (List.mem_cons_of_mem _ member))
        rw [List.foldl_cons, next, same]
      · rw [clear j List.mem_cons_self] at found
        cases found

/-- With enough budget, registers used behind the row are reported as the row makes them. -/
theorem reports (chain : Chain self W form after shown start) (row : List.Forall₂ form is ts)
    (line : StraightLine self.port is use) :
    Reports self W is.length use fun q =>
      shown (ts.foldl (fun B t => after t B) (fun _ => start) q) := by
  generalize size : is.length = n
  induction n using Nat.strongRecOn generalizing is ts use with
  | ind n ih =>
      subst size
      intro q whole
      rcases ConsistentCfg.exists_last (fun i => registerFinding self.port i q ≠ none) is with
        none | ⟨pre, i, post, rfl, defines, clear⟩
      · have unwritten : ∀ j ∈ is, registerFinding self.port j q = Option.none :=
          fun j member => not_not.mp (none j member)
        have same := chain.kept (B := fun _ => start) .nil row line whole unwritten
        dsimp only
        rw [same]
        refine ⟨.unknown' .noDefinitionFound, is.length + 1, chain.unset, by omega, ?_⟩
        intro loops depth b deep nested left
        cases depth with
        | zero => omega
        | succ depth => exact line.registerImpl_clear unwritten deep (by omega)
      · have unwritten : ∀ j ∈ post, registerFinding self.port j q = Option.none :=
          fun j member => not_not.mp (clear j member)
        rcases forall₂_split row.flip with ⟨ts₁, t, ts₂, rfl, early, here, late⟩
        have shorter : pre.length < (pre ++ i :: post).length := by simp
        have earlier := ih pre.length shorter early.flip (line.upTo rfl) rfl
        rcases chain.each early.flip here (line.upTo rfl) q whole with
          ⟨missed, -⟩ | ⟨f, found, yields⟩
        · exact (defines missed).elim
        · rcases yields _ earlier with ⟨v, cost, value, le, settled⟩
          have count : (pre ++ i :: post).length = pre.length + 1 + post.length := by
            rw [List.length_append, List.length_cons]
            omega
          have whole' : StraightLine self.port ((pre ++ [i]) ++ post) use := by simpa using line
          have same := chain.kept (B := after t (ts₁.foldl (fun B t => after t B) fun _ => start))
            (List.rel_append early.flip (.cons here .nil)) late.flip whole' whole unwritten
          dsimp only
          rw [List.foldl_append, List.foldl_cons, same]
          refine ⟨v, post.length + 2 + cost, value, by omega, ?_⟩
          intro loops depth b deep nested left
          cases depth with
          | zero => omega
          | succ depth =>
              rw [← ResolutionBudget.spend_spend]
              refine line.registerImpl_found rfl found unwritten (by omega) (by omega)
                (settled loops depth _ (by omega) (by omega) ?_)
              simp only [ResolutionBudget.spend]
              omega

end Chain

end IDAnalysister
