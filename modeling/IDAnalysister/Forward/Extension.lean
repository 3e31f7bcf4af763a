import IDAnalysister.Forward.Soundness
import IDAnalysister.Library.Chaotic
import IDAnalysister.Locators.ExtensionPoints

/-!
# The forward engine over an extended registry

The transfer of a locator from outside need not be monotone, so the walk of a function that it
takes part in need not find a greatest solution. It still ends with states that claim no more
than their predecessors pass on, whatever the registry, and that is enough: a walk is right if
each instruction's step keeps states right (`resolveAt_explained`). Locators that leave
`apply_forward` alone owe nothing but to keep off `lea` (`resolveAt_registered`).
-/

namespace IDAnalysister

open Transfer Trace AbstractState ForwardSymbolicEngine Chaotic

/-! ## The walk as an iteration -/

namespace ForwardSymbolicEngine

/-- What a walk iterates, as a flow over the start addresses of its blocks. -/
noncomputable def flowOf (self : ForwardSymbolicEngine) (walk : Walk) : Flow Nat AbstractState where
  pred p v := ∃ b c, walk.cfg.byStart p = some b ∧ walk.cfg.byStart v = some c ∧
    b ∈ walk.cfg.predecessors c
  entry := walk.entry.startEa
  seed := walk.initial
  transfer := self.transferOf walk

/-- The recorded out-states are what the blocks make of the recorded in-states. -/
def Recorded (self : ForwardSymbolicEngine) (walk : Walk) (w : WalkState) : Prop :=
  ∀ n, w.outStates n = (w.inStates n).map (self.transferOf walk n)

/-- What the iteration has found, and what it still has to look at. -/
def iteration (w : WalkState) : Flow.Progress Nat AbstractState :=
  ⟨w.inStates, {n | n ∈ w.worklist}⟩

variable {self : ForwardSymbolicEngine} {bound start : Nat} {walk : Walk} {w w' : WalkState}
variable {rest : List Nat} {block : BasicBlockInfo}

/-- What is passed on to a block is among the out-states that a visit joins. -/
theorem mem_outs_of_passed (recorded : self.Recorded walk w)
    (here : walk.cfg.byStart start = some block) {y : AbstractState}
    (passed : y ∈ (self.flowOf walk).passed w.inStates start) :
    y ∈ (walk.cfg.predecessors block).filterMap fun p => w.outStates p.startEa := by
  rcases passed with ⟨n, x, ⟨b, c, known, here', pred⟩, visited, rfl⟩
  obtain rfl := Option.some.inj (here.symm.trans here')
  obtain rfl := CfgModel.byStart_startEa known
  refine List.mem_filterMap.mpr ⟨b, pred, ?_⟩
  rw [recorded, visited]
  rfl

/-- The state that a visit computes claims no more than what is passed on, widened or not. -/
theorem computedIn_bounded (recorded : self.Recorded walk w)
    (here : walk.cfg.byStart start = some block) {joined : AbstractState}
    (available : joinPredecessorStates walk block w.outStates = some joined) (visits : Nat) :
    (self.flowOf walk).Bounded w.inStates start
      (self.computedIn (w.inStates start) joined visits) := by
  have same := CfgModel.byStart_startEa here
  have narrowed : self.computedIn (w.inStates start) joined visits ≤ joined := by
    unfold computedIn
    split
    · exact le_refl _
    · split
      · exact widen_le _ _
      · exact le_refl _
  unfold joinPredecessorStates at available
  split at available
  · rename_i atEntry
    obtain rfl := Option.some.inj available
    exact ⟨fun _ => narrowed, fun other => (other (same.symm.trans atEntry)).elim⟩
  · rename_i notEntry
    dsimp only at available
    split at available
    · cases available
    · rename_i nonempty
      obtain rfl := Option.some.inj available
      refine ⟨fun entry => (notEntry (same.trans entry)).elim, fun _ y passed => ?_⟩
      exact narrowed.trans
        ((isGLB_joinStates nonempty).1 (mem_outs_of_passed recorded here passed))

/-- Nothing is passed on to an address where no block starts. -/
theorem settled_of_missing (proper : walk.entry ∈ walk.cfg.blocks)
    (missing : walk.cfg.byStart start = none) : (self.flowOf walk).Settled w.inStates start := by
  refine Flow.settled_of_unreached ?_ ?_
  · rintro rfl
    rcases CfgModel.exists_byStart proper with ⟨c, known⟩
    exact absurd (missing.symm.trans known) nofun
  · rintro y ⟨_, _, ⟨_, _, _, known, _⟩, _⟩
    exact absurd (missing.symm.trans known) nofun

/-- Nor is anything passed on to a block of whose predecessors none was visited. -/
theorem settled_of_unavailable (recorded : self.Recorded walk w)
    (here : walk.cfg.byStart start = some block)
    (unavailable : joinPredecessorStates walk block w.outStates = none) :
    (self.flowOf walk).Settled w.inStates start := by
  unfold joinPredecessorStates at unavailable
  split at unavailable
  · cases unavailable
  · rename_i notEntry
    dsimp only at unavailable
    split at unavailable
    · rename_i empty
      refine Flow.settled_of_unreached ?_ ?_
      · rintro rfl
        exact notEntry (CfgModel.byStart_startEa here)
      · intro y passed
        have member := mem_outs_of_passed recorded here passed
        rw [empty] at member
        cases member
    · cases unavailable

/-- A pass keeps the out-states right. -/
theorem Visited.recorded (visited : self.Visited bound walk w start rest w')
    (ok : w'.budgetExceeded = false) (recorded : self.Recorded walk w) :
    self.Recorded walk w' := by
  cases visited with
  | noBlock => exact recorded
  | refused => exact recorded
  | unavailable => exact recorded
  | unchanged => exact recorded
  | updated here _ _ _ _ simulated =>
      have within : _ = false := ok
      subst within
      rcases simulate_eq_runSteps simulated with ⟨is, sweep, rfl⟩
      intro n
      by_cases same : n = start
      · subst same
        dsimp only
        rw [Function.update_self, Function.update_self, Option.map_some, transferOf, here]
        dsimp only
        rw [sweep.sweepOf_eq]
      · dsimp only
        rw [Function.update_of_ne same, Function.update_of_ne same]
        exact recorded n

/-- A pass that no limit touches is a visit of the iteration. -/
theorem Visited.visit (proper : walk.entry ∈ walk.cfg.blocks) (converse : walk.cfg.Converse)
    (recorded : self.Recorded walk w) (head : w.worklist = start :: rest)
    (visits : self.WithinVisits w') (visited : self.Visited bound walk w start rest w')
    (ok : w'.budgetExceeded = false) : (self.flowOf walk).Step (iteration w) (iteration w') := by
  have kept : ∀ n ∈ (iteration w).pending, n ≠ start → n ∈ rest := by
    intro n member other
    have listed : n ∈ w.worklist := member
    rw [head] at listed
    exact List.mem_of_ne_of_mem other listed
  cases visited with
  | noBlock missing => exact .drop (settled_of_missing proper missing) kept
  | refused here capped =>
      have within : exceeds self.maxBlockVisits (w.visitCounts start + 1) = false := by
        simpa [WalkState.counted] using visits start
      exact absurd (capped.symm.trans within) nofun
  | unavailable here none' => exact .drop (settled_of_unavailable recorded here none') kept
  | unchanged here available same =>
      have bounded := computedIn_bounded recorded here available (w.visitCounts start + 1)
      refine .drop ⟨?_, fun _ => Option.isSome_iff_exists.mpr ⟨_, same⟩⟩ kept
      intro x known
      obtain rfl := Option.some.inj (same.symm.trans known)
      exact bounded
  | @updated block joined computed out used exceeded here _ available value _ _ =>
      have within : exceeded = false := ok
      subst within value
      have bounded := computedIn_bounded recorded here available (w.visitCounts start + 1)
      refine .update bounded (fun n member other => ?_) ?_
      · exact List.mem_append_left _ (kept n member other)
      · rintro u ⟨b, c, hereB, hereC, pred⟩
        obtain rfl := Option.some.inj (here.symm.trans hereB)
        have succ := (converse start u block c here hereC).mpr pred
        exact List.mem_append_right _
          (List.mem_map.mpr ⟨c, succ, CfgModel.byStart_startEa hereC⟩)

/-- Once the worklist is empty, every block is settled, whatever the transfers. -/
theorem settled_of_run (proper : walk.entry ∈ walk.cfg.blocks) (converse : walk.cfg.Converse)
    (run : self.runWorklist bound walk = some w) (ok : w.budgetExceeded = false)
    (visits : self.WithinVisits w) : ∀ n, (self.flowOf walk).Settled w.inStates n := by
  rcases Loop.passes_of_run run with ⟨passes, done⟩
  have along : ∀ {e}, Loop.Passes finished (self.visit bound walk) walk.start e →
      e.budgetExceeded = false → self.WithinVisits e →
      self.Recorded walk e ∧ (self.flowOf walk).Settling (iteration e) := by
    intro e passes ok visits
    induction passes with
    | refl =>
        refine ⟨fun _ => rfl, fun n => ?_⟩
        by_cases entry : n = walk.entry.startEa
        · exact Or.inl (by simp [iteration, Walk.start, entry])
        · refine Or.inr (Flow.settled_of_unreached entry ?_)
          rintro y ⟨_, _, _, known, _⟩
          cases known
    | @tail e e' _ last ih =>
        rcases visited_of_pass last with ⟨within, n, rest, head, visited⟩
        rcases ih within (fun m => exceeds_mono (visited.counts_le m) (visits m)) with
          ⟨recorded, settling⟩
        exact ⟨visited.recorded ok recorded,
          (visited.visit proper converse recorded head visits ok).settling settling⟩
  have empty : w.worklist = [] := by simpa [finished, ok] using done
  intro n
  exact ((along passes ok visits).2 n).resolve_left (by simp [iteration, empty])

/-- A known answer is read from the recorded state of the target's block. -/
theorem read_of_known {bound targetEa reg : Nat} {target : BasicBlockInfo} {v : ValueLattice}
    (ok : w.budgetExceeded = false)
    (answer : self.readTarget bound walk w target targetEa reg = some v) (known : v.isKnown) :
    ∃ s is, w.inStates target.startEa = some s ∧
      Sweep self.port (min target.endEa targetEa) target.startEa is ∧
      v = (self.runSteps walk.funcEa is s).getRegister (some reg) := by
  rw [readTarget, ok, if_neg Bool.false_ne_true] at answer
  split at answer
  · obtain rfl := Option.some.inj answer
    cases known
  · rename_i s here
    rcases Option.bind_eq_some_iff.mp answer with ⟨⟨out, used, exceeded⟩, simulated, read⟩
    dsimp only at read
    split at read
    · obtain rfl := Option.some.inj read
      cases known
    · rename_i within
      rw [Bool.not_eq_true] at within
      subst within
      rcases simulate_eq_runSteps simulated with ⟨is, sweep, rfl⟩
      exact ⟨s, is, here, sweep, (Option.some.inj read).symm⟩

end ForwardSymbolicEngine

/-! ## From the instructions to the answers -/

section Answers

variable {self : ForwardSymbolicEngine} {funcEa : Nat} {G : ConsistentCfg self.port funcEa}
variable {S : Type} {step : Instruction → S → S → Prop} {argIndex : Int} {reg : Nat}

/-- An execution of blocks is a run of the iteration's flow. -/
theorem run_of_path {b : BasicBlockInfo} {π : List Instruction} (path : G.Path b π) {m m' : S}
    (execution : Along step π m m') :
    (self.flowOf (G.walk argIndex reg)).Run (fun n m m' => ∃ b ∈ G.cfg.blocks, b.startEa = n ∧
      Along step (G.tile b) m m') m b.startEa m' := by
  induction path generalizing m' with
  | entry =>
      cases execution
      exact .entry
  | @step b c π path succ ih =>
      have hb := path.mem_blocks
      have hc := (G.mem_successors_iff.mp succ).1
      rcases execution.append_inv with ⟨u, before, through⟩
      exact (ih before).step ⟨b, hb, rfl, through⟩ ⟨b, c, G.byStart_startEa hb,
        G.byStart_startEa hc, G.mem_predecessors_of_successors hb succ⟩

/-- A walk that no limit cuts short is right about the executions if the step of each
instruction is, in whatever sense a state is right about the machine that a less known state
inherits. -/
theorem known_of_answer {abstracts : AbstractState → S → Prop}
    (lower : ∀ {s t m}, s ≤ t → abstracts t m → abstracts s m)
    (right : ∀ b ∈ G.cfg.blocks, ∀ i ∈ G.tile b, ∀ s m m', abstracts s m → step i m m' →
      abstracts (self.step i s funcEa) m')
    (source : G.cfg.predecessors G.entry = []) {bound : Nat} {w : WalkState}
    (run : self.runWorklist bound (G.walk argIndex reg) = some w) (visits : self.WithinVisits w)
    {targetEa : Nat} {v : ValueLattice}
    (answer : self.resolveAt bound funcEa argIndex targetEa (some reg) = some v)
    (known : v.isKnown) {π : List Instruction} (path : G.PathTo targetEa π) {m m' : S}
    (start : abstracts (seed reg argIndex) m) (execution : Along step π m m') :
    ∃ s, abstracts s m' ∧ v = s.getRegister (some reg) := by
  have ok := not_exceeded_of_known G.blockContaining_entry run answer known
  have settled := settled_of_run G.entry_mem G.converse_cfg run ok visits
  have through {b : BasicBlockInfo} (hb : b ∈ G.cfg.blocks) {is : List Instruction}
      (inside : ∀ i ∈ is, i ∈ G.tile b) {s : AbstractState} {u u' : S} (holds : abstracts s u)
      (along : Along step is u u') : abstracts (self.runSteps funcEa is s) u' :=
    along.simulates (fun i member => right b hb i (inside i member)) holds
  cases path with
  | @intro b π path lo hi =>
      have hb := path.mem_blocks
      rcases execution.append_inv with ⟨u, before, last⟩
      rw [ConsistentCfg.resolveAt_eq hb lo hi, run, Option.bind_some] at answer
      rcases read_of_known ok answer known with ⟨s, is, here, sweep, rfl⟩
      obtain rfl := sweep.unique ((G.tiled b hb).sweep (G.decoded b hb) (min_le_left _ _))
      rw [(G.tiled b hb).before_min] at sweep ⊢
      have simulated : ∃ t, w.inStates b.startEa = some t ∧ abstracts t u := by
        refine Flow.simulates settled lower ?_ ?_ (run_of_path path before)
        · rintro n x u u' holds ⟨c, hc, rfl, along⟩
          change abstracts (self.transferOf (G.walk argIndex reg) c.startEa x) u'
          rw [ConsistentCfg.transferOf_eq hc]
          exact through hc (fun i member => member) holds along
        · -- nothing comes back to the entry
          intro u back
          cases back with
          | entry => exact start
          | @step p _ _ _ _ _ edge =>
              rcases edge with ⟨p, e, _, atEntry, pred⟩
              obtain rfl := Option.some.inj ((G.byStart_startEa G.entry_mem).symm.trans atEntry)
              change p ∈ G.cfg.predecessors G.entry at pred
              rw [source] at pred
              cases pred
      rcases simulated with ⟨t, here', holds⟩
      obtain rfl := Option.some.inj (here.symm.trans here')
      exact ⟨_, through hb (fun i member => mem_of_before member) holds last, rfl⟩

end Answers

/-! ## Any registry -/

/-- The engine's step for an instruction with this effect keeps right states right. -/
def ForwardSymbolicEngine.KeepsRight (self : ForwardSymbolicEngine) (funcEa : Nat) {W : Nat}
    (i : Instruction) (effect : State Place W → State Place W → Prop) : Prop :=
  ∀ (n : Int) (x₀ : BitVec W) s m m', StateStands self.port n x₀ s m → effect m m' →
    StateStands self.port n x₀ (self.step i s funcEa) m'

section Steps

variable {self : ForwardSymbolicEngine} {funcEa W : Nat} {i : Instruction} {s : AbstractState}

/-- A step depends on the registry by the match of its instruction only, and for a call not at
all. -/
theorem step_of_findMatch {r : LocatorRegistry}
    (same : i.isCall = false → self.registry.findMatch i = r.findMatch i) :
    self.step i s funcEa = ({ self with registry := r } : ForwardSymbolicEngine).step i s
      funcEa := by
  unfold ForwardSymbolicEngine.step stepTransfer
  split
  · rfl
  · rename_i notCall
    unfold transferByShape
    rw [same (by simpa using notCall)]
    rfl

/-- Where no other locator takes its instruction, a step is as right as with the built-in ones. -/
theorem keepsRight_builtin
    (same : i.isCall = false → self.registry.findMatch i = defaultRegistry.findMatch i)
    (positive : 0 < W) (le : W ≤ 64) :
    self.KeepsRight funcEa i (TrackedStep self.port funcEa W i) := by
  intro n x₀ s m m' stands step
  rw [step_of_findMatch same]
  have right : StateStands
      ({ self with registry := defaultRegistry } : ForwardSymbolicEngine).port n x₀ s m := stands
  exact right.step rfl positive le step

end Steps

theorem StateStands.of_le {port : IdaPort} {W : Nat} {n : Int} {x₀ : BitVec W}
    {s t : AbstractState} {m : State Place W} (le : s ≤ t) (stands : StateStands port n x₀ t m) :
    StateStands port n x₀ s m :=
  fun loc p mirrors supported => (stands loc p mirrors supported).of_le (le loc)

theorem standsFor_of_explained {self : ForwardSymbolicEngine} {funcEa W : Nat}
    {G : ConsistentCfg self.port funcEa} {sem : Semantics W}
    (right : ∀ b ∈ G.cfg.blocks, ∀ i ∈ G.tile b, self.KeepsRight funcEa i (sem i))
    (source : G.cfg.predecessors G.entry = []) {argIndex : Int} {reg : Nat}
    (whole : WholeReg self.port W reg) {bound : Nat} {w : WalkState}
    (run : self.runWorklist bound (G.walk argIndex reg) = some w) (visits : self.WithinVisits w)
    {targetEa : Nat} {v : ValueLattice}
    (answer : self.resolveAt bound funcEa argIndex targetEa (some reg) = some v)
    {π : List Instruction} (path : G.PathTo targetEa π) {m m' : State Place W}
    (execution : Along sem π m m') : StandsFor argIndex (m (.reg reg)) (m' (.reg reg)) v := by
  cases known : v.isKnown with
  | false => exact standsFor_of_unknown known _
  | true =>
      have read : ∃ s, StateStands self.port argIndex (m (.reg reg)) s m' ∧
          v = s.getRegister (some reg) :=
        (@known_of_answer self funcEa G _ sem argIndex reg (StateStands self.port argIndex _))
          StateStands.of_le (fun b hb i member s m m' => right b hb i member _ _ s m m') source
          run visits answer known path (stateStands_seed reg argIndex m) execution
      rcases read with ⟨s, holds, rfl⟩
      exact holds.register whole

/-- Whatever is registered: if the step of each instruction of a function keeps states right,
then so does a walk that no limit cuts short. The locators' transfers need not be monotone. An
integer answer is the word in the register on every execution that reaches the target, and the
symbol of the argument says that the register holds the argument. -/
theorem resolveAt_explained (self : ForwardSymbolicEngine) {funcEa W : Nat}
    (G : ConsistentCfg self.port funcEa) (source : G.cfg.predecessors G.entry = [])
    {sem : Semantics W}
    (right : ∀ b ∈ G.cfg.blocks, ∀ i ∈ G.tile b, self.KeepsRight funcEa i (sem i))
    {argIndex : Int} {reg : Nat} (whole : WholeReg self.port W reg) {bound : Nat} {w : WalkState}
    (run : self.runWorklist bound (G.walk argIndex reg) = some w) (visits : self.WithinVisits w)
    {targetEa : Nat} {v : ValueLattice}
    (answer : self.resolveAt bound funcEa argIndex targetEa (some reg) = some v)
    {π : List Instruction} (path : G.PathTo targetEa π) {m m' : State Place W}
    (execution : Along sem π m m') :
    (∀ d k, v = .concrete d k → d = .int (m' (.reg reg)).toNat) ∧
      (v = .symbolic ("arg" ++ toString argIndex) → m' (.reg reg) = m (.reg reg)) := by
  have stands := standsFor_of_explained right source whole run visits answer path execution
  exact ⟨stands.concrete, stands.argument⟩

/-! ### A complement with forward semantics -/

namespace ForwardComplement

/-- `NotLocator` with an `apply_forward`: the complement of an integer, and nothing otherwise. -/
def locator : Locator :=
  { notLocator with
    applyForward := some fun i s =>
      match i.operand 0 with
      | none => .ok s
      | some dst =>
          match (s.getRegister dst.reg).intOf with
          | none => .ok (s.invalidateRegister dst.reg .unsupportedInstruction)
          | some n => .ok (s.setRegister dst.reg
              (complementValue (.concrete (.int n) .int) dst.dtypeSize)) }

def engine : ForwardSymbolicEngine :=
  { port := Complement.port
    registry := .registerAll
      (BuiltinModule.all.flatMap BuiltinModule.registerBuiltins ++ [(0, locator)])
    maxInstructions := some 4000
    maxBlockVisits := some 64
    loopWidenAfter := 3 }

/-- The complement is exact, and the other instructions are built-in forms. -/
def sem : Semantics 32 := fun i s s' =>
  if i.mnem = "not" then s' = Function.update s (.reg 0) (~~~ s (.reg 0))
  else TrackedStep Complement.port 0x401000 32 i s s'

theorem findMatch_eq (i : Instruction) (other : i.mnem ≠ "not") :
    engine.registry.findMatch i = defaultRegistry.findMatch i := by
  rw [defaultRegistry_eq]
  refine LocatorRegistry.findMatch_append fun e member => ?_
  obtain rfl := List.mem_singleton.mp member
  simp [locator, notLocator, other]

theorem keepsRight_notEax :
    engine.KeepsRight 0x401000 Complement.notEax (sem Complement.notEax) := by
  intro n x₀ s m m' stands step
  obtain rfl : m' = Function.update m (.reg 0) (~~~ m (.reg 0)) := step
  have matched : engine.registry.findMatch Complement.notEax = some locator := rfl
  have forward : locator.runForward Complement.notEax s =
      match (s.getRegister (some 0)).intOf with
      | none => .ok (s.invalidateRegister (some 0) .unsupportedInstruction)
      | some n => .ok (s.setRegister (some 0) (complementValue (.concrete (.int n) .int) 4)) := rfl
  refine StateStands.keep ?_ fun loc => kept_invalidatePartialRegisterWrites
  rw [stepTransfer_forward (by decide) matched rfl, applyLocator, forward]
  cases known : (s.getRegister (some 0)).intOf with
  | none => exact stands.setRegister 0 ((vague_unknown _ _).standsFor _)
  | some n =>
      have whole : WholeReg Complement.port 32 0 := FakeIdaPort.wholeReg rfl (by decide)
      have eax := (stands.register whole).concrete
      rcases ValueLattice.intOf_eq_some known with ⟨kind, value⟩
      rw [value] at eax
      have holds : Holds (.concrete (.int n) .int) (m (.reg 0)) := fun d k same => by
        obtain ⟨rfl, -⟩ := ValueLattice.concrete.inj same
        exact eax _ _ rfl
      have complement : Holds (complementValue (.concrete (.int n) .int) 4) (~~~ m (.reg 0)) :=
        holds_complementValue rfl (by decide) holds
      exact stands.setRegister 0 (standsFor_concrete complement)

theorem right : ∀ b ∈ Complement.graph.cfg.blocks, ∀ i ∈ Complement.graph.tile b,
    engine.KeepsRight 0x401000 i (sem i) := by
  intro b _ i member
  by_cases complement : i.mnem = "not"
  · have same : i = Complement.notEax := by
      have all : ∀ i ∈ Complement.code, i.mnem = "not" → i = Complement.notEax := by decide
      exact all i member complement
    rw [same]
    exact keepsRight_notEax
  · have plain : sem i = TrackedStep Complement.port 0x401000 32 i := by
      funext s s'
      exact if_neg complement
    rw [plain]
    exact keepsRight_builtin (fun _ => findMatch_eq i complement) (by decide) (by decide)

theorem along (m : State Place 32) : Along sem [Complement.setEax, Complement.notEax] m
    (Function.update (Function.update m (.reg 0) (BitVec.ofInt 32 5)) (.reg 0)
      (~~~ BitVec.ofInt 32 5)) := by
  have form : Form Complement.port 0x401000 32 Complement.setEax (.const (.reg 0) 5) :=
    .register (.movImm rfl ⟨rfl, rfl, rfl, rfl, rfl⟩
      ⟨rfl, rfl, rfl, FakeIdaPort.wholeReg rfl (by decide)⟩ ⟨rfl, rfl, by decide, by decide⟩)
  refine .cons (m := Function.update m (.reg 0) (BitVec.ofInt 32 5)) ?_ (.cons ?_ (.nil _))
  · exact .transfer form nofun rfl
  · have complement : sem Complement.notEax = fun s s' =>
        s' = Function.update s (.reg 0) (~~~ s (.reg 0)) := rfl
    rw [complement]
    dsimp only
    rw [Function.update_self]

theorem walks : ∃ w, engine.runWorklist 64 (Complement.graph.walk 0 0) = some w ∧
    engine.WithinVisits w :=
  exists_walk (by decide)

end ForwardComplement

/-- The walk gets the complement of `5` right. -/
theorem resolveAt_explained_complement : Datum.int 0xfffffffa =
    .int (Function.update (Function.update (fun _ => 0#32) (.reg 0) (BitVec.ofInt 32 5)) (.reg 0)
      (~~~ BitVec.ofInt 32 5) (Place.reg 0)).toNat := by
  rcases ForwardComplement.walks with ⟨w, run, visits⟩
  have path : Complement.graph.PathTo 0x401007 [Complement.setEax, Complement.notEax] :=
    .intro .entry (by decide) (by decide)
  have sound := resolveAt_explained ForwardComplement.engine Complement.graph (by decide)
    ForwardComplement.right (FakeIdaPort.wholeReg rfl (by decide)) run visits
    (show _ = some (ValueLattice.concrete (.int 0xfffffffa) .int) by decide) path
    (ForwardComplement.along fun _ => 0#32)
  exact sound.1 _ _ rfl

/-! ## Locators without forward semantics -/

section Passive

variable {self : ForwardSymbolicEngine} {funcEa W : Nat} {i : Instruction} {n : Int}
variable {x₀ : BitVec W} {s : AbstractState} {m m' : State Place W} {a b : Operand}

theorem Pair.plain {wa wb : Bool} (pair : Pair i a b wa wb) (left : a.isMemory = false)
    (right : b.isMemory = false) : ∀ op ∈ i.operands, op.isMemory = false := by
  intro op member
  rw [pair.operands] at member
  rcases List.mem_pair.mp member with rfl | rfl
  · exact left
  · exact right

/-- A pair that writes its register flags it. -/
theorem Pair.flagged {port : IdaPort} {wb : Bool} (pair : Pair i a b true wb) {d : Nat}
    (dest : RegOperand port W a d) : Flagged port funcEa i (.reg d) := by
  refine ⟨a, by simp [pair.operands], dest.kind, ?_, dest.reg⟩
  rw [pair.first]
  exact pair.flagA

theorem ne_of_not_flagged {port : IdaPort} {p q : Place} (flagged : Flagged port funcEa i q)
    (other : ¬ Flagged port funcEa i p) : p ≠ q := by
  rintro rfl
  exact other flagged

/-- A locator that leaves `apply_forward` alone may take any instruction but `lea` from the
built-in ones: what they would have moved is lost or goes by the shapes of the operands. -/
theorem StateStands.shadowed (stands : StateStands self.port n x₀ s m) (notCall : i.isCall = false)
    {l : Locator} (matched : self.registry.findMatch i = some l)
    (inherits : l.applyForward = none) (notLea : i.mnem ≠ "lea")
    (step : TrackedStep self.port funcEa W i m m') :
    StateStands self.port n x₀ (self.stepTransfer i s funcEa) m' := by
  have passive : ∀ l, self.registry.findMatch i = some l → l.applyForward = none := by
    intro l' matched'
    obtain rfl := Option.some.inj (matched.symm.trans matched')
    exact inherits
  have lost (plain : ∀ op ∈ i.operands, op.isMemory = false)
      (kept : ∀ p, ¬ Flagged self.port funcEa i p → m' p = m p) :
      StateStands self.port n x₀ (self.stepTransfer i s funcEa) m' :=
    stands.passive notCall passive (Or.inl plain) kept
  -- the destination of a pair is flagged, and nothing else changes
  have assigned {a b : Operand} {d : Nat} {x : BitVec W} (pair : Pair i a b true false)
      (dest : RegOperand self.port W a d) (src : b.isMemory = false)
      (put : m' = Function.update m (.reg d) x) :
      StateStands self.port n x₀ (self.stepTransfer i s funcEa) m' := by
    refine lost (pair.plain (Operand.isMemory_of_reg dest.kind) src) fun p other => ?_
    rw [put, Function.update_of_ne (ne_of_not_flagged (pair.flagged dest) other)]
  cases step with
  | transfer form moves moved =>
      cases form with
      | register form =>
          cases form with
          | movImm _ pair dest imm =>
              exact assigned pair dest (Operand.isMemory_of_immediate imm.kind) moved
          | movReg _ pair dest src =>
              exact assigned pair dest (Operand.isMemory_of_reg src.kind) moved
          | leaAddr mnem => exact (notLea mnem).elim
          | leaDispl mnem => exact (notLea mnem).elim
          | addImm _ pair dest imm =>
              exact assigned pair dest (Operand.isMemory_of_immediate imm.kind) moved
          | subImm _ pair dest imm =>
              exact assigned pair dest (Operand.isMemory_of_immediate imm.kind) moved
          | zero _ pair dest src =>
              exact assigned pair dest (Operand.isMemory_of_reg src.kind) moved
          | @xchg a b d r _ pair left right =>
              refine lost (pair.plain (Operand.isMemory_of_reg left.kind)
                (Operand.isMemory_of_reg right.kind)) fun p other => ?_
              have second : Flagged self.port funcEa i (.reg r) := by
                refine ⟨b, by simp [pair.operands], right.kind, ?_, right.reg⟩
                rw [pair.second]
                exact pair.flagB
              rw [show m' = _ from moved,
                Function.update_of_ne (ne_of_not_flagged second other),
                Function.update_of_ne (ne_of_not_flagged (pair.flagged left) other)]
          | cmov => exact (moves _ rfl).elim
          | call => exact (moves _ rfl).elim
          | unmatched => exact (moves _ rfl).elim
      | storeImm _ pair dest imm =>
          exact stands.storeImm notCall matched inherits pair dest imm moved
      | storeReg _ pair dest src =>
          exact stands.storeReg notCall matched inherits pair dest src moved
      | load _ pair dest src =>
          exact stands.loaded notCall matched inherits pair dest src moved
  | @cmov a b d r mnem pair dest src either =>
      refine lost (pair.plain (Operand.isMemory_of_reg dest.kind)
        (Operand.isMemory_of_reg src.kind)) fun p other => ?_
      rcases either with rfl | rfl
      · rfl
      · exact Function.update_of_ne (ne_of_not_flagged (pair.flagged dest) other) _ _
  | call call =>
      rw [notCall] at call
      exact (Bool.false_ne_true call).elim
  | other _ _ shape kept => exact stands.passive notCall passive shape kept

/-- Over the built-in locators and such others, the step of a modelled instruction is right. -/
theorem keepsRight_registered {added : List (Int × Locator)}
    (registry : self.registry = .registerAll
      (BuiltinModule.all.flatMap BuiltinModule.registerBuiltins ++ added))
    (passive : ∀ e ∈ added, e.2.applyForward = none)
    (keepsOff : ∀ e ∈ added, e.2.accepts i = some true → i.mnem ≠ "lea")
    (positive : 0 < W) (le : W ≤ 64) :
    self.KeepsRight funcEa i (TrackedStep self.port funcEa W i) := by
  by_cases same : i.isCall = false → self.registry.findMatch i = defaultRegistry.findMatch i
  · exact keepsRight_builtin same positive le
  · intro n x₀ s m m' stands step
    push Not at same
    rcases LocatorRegistry.findMatch_append_cases
      (BuiltinModule.all.flatMap BuiltinModule.registerBuiltins) added i with kept | given
    · rw [← registry, ← defaultRegistry_eq] at kept
      exact (same.2 kept).elim
    · rcases given with ⟨e, member, matched, accepted⟩
      rw [← registry] at matched
      refine StateStands.keep ?_ fun loc => kept_invalidatePartialRegisterWrites
      exact stands.shadowed same.1 matched (passive e member) (keepsOff e member accepted) step

end Passive

namespace BesideComplement

/-- The example is asked before the built-in locators. -/
def engine : ForwardSymbolicEngine :=
  { port := Complement.port
    registry := .registerAll
      (BuiltinModule.all.flatMap BuiltinModule.registerBuiltins ++ [(7, notLocator)])
    maxInstructions := some 4000
    maxBlockVisits := some 64
    loopWidenAfter := 3 }

theorem along (m : State Place 32) (x : BitVec 32) :
    Along (TrackedStep Complement.port 0x401000 32) [Complement.setEax, Complement.notEax] m
      (Function.update (Function.update m (.reg 0) (BitVec.ofInt 32 5)) (.reg 0) x) := by
  have eax : RegOperand Complement.port 32 (FakeIdaPort.reg 0 0) 0 :=
    ⟨rfl, rfl, rfl, FakeIdaPort.wholeReg rfl (by decide)⟩
  have form : Form Complement.port 0x401000 32 Complement.setEax (.const (.reg 0) 5) :=
    .register (.movImm rfl ⟨rfl, rfl, rfl, rfl, rfl⟩ eax ⟨rfl, rfl, by decide, by decide⟩)
  refine .cons (.transfer form nofun rfl) (.cons (.other (by decide) ?_ ?_ ?_) (.nil _))
  · intro op member _
    obtain rfl := List.mem_singleton.mp member
    exact ⟨0, eax⟩
  · exact Or.inl (by decide)
  · intro p other
    have flagged : Flagged Complement.port 0x401000 Complement.notEax (.reg 0) :=
      ⟨_, List.mem_singleton_self _, rfl, rfl, rfl⟩
    exact Function.update_of_ne (ne_of_not_flagged flagged other) _ _

theorem walks : ∃ w, engine.runWorklist 64 (Complement.graph.walk 1 6) = some w ∧
    engine.WithinVisits w :=
  exists_walk (by decide)

end BesideComplement

end IDAnalysister
