import IDAnalysister.Agreement.Definitions
import IDAnalysister.Forward.Exactness

/-!
# The engines on a function of one block

A demand for a place at an address is answered by a chain of definitions in the block;
the forward engine has run the same definitions by then. The induction is on the nesting
of callbacks: the last definition before the address agrees, and nothing behind it
touches the place. Where no definition is found, the walk leaves the block or stops, and
the forward engine still has what it started from.
-/

namespace IDAnalysister

open Effect Prog AbstractState ForwardSymbolicEngine

/-! ## Runs -/

section Runs

variable {engine : ForwardSymbolicEngine} {funcEa : Nat} {arg : Option Int} {s : AbstractState}
variable {is : List Instruction} (builtin : engine.registry = defaultRegistry)
variable (plain : ∀ i ∈ is, PlainViews engine.port i) (flags : ∀ i ∈ is, ExactFlags i)
include builtin plain flags

/-- Instructions that are no definition of a place leave it as it is, or make it vague. -/
theorem kept_runSteps {loc : Location} {p : Place} (mirrors : Mirrors loc p)
    (whole : WholePlace engine.port p)
    (missed : ∀ i ∈ is, placeFinding engine.port funcEa i p = none) :
    Kept arg (s.read loc) ((engine.runSteps funcEa is s).read loc) := by
  induction is generalizing s with
  | nil => exact .refl
  | cons i is ih =>
      have first : Kept arg (s.read loc) ((engine.step i s funcEa).read loc) :=
        kept_step builtin (flags i (by simp)) (plain i (by simp)) mirrors whole
          (missed i (by simp))
      have rest := ih (fun j member => plain j (by simp [member]))
        (fun j member => flags j (by simp [member])) (s := engine.step i s funcEa)
        (fun j member => missed j (by simp [member]))
      exact first.trans rest

/-- A number that names a part of a register stays vague. -/
theorem vague_runSteps {q : Nat} (narrow : ¬ engine.port.Whole q)
    (vague : Vague arg (s.read (.reg (some q)))) :
    Vague arg ((engine.runSteps funcEa is s).read (.reg (some q))) := by
  induction is generalizing s with
  | nil => exact vague
  | cons i is ih =>
      apply ih (fun j member => plain j (by simp [member]))
        (fun j member => flags j (by simp [member]))
      exact vague_step builtin (flags i (by simp)) (plain i (by simp)) narrow vague

end Runs

/-! ## Demands -/

/-- The state of the forward engine at an address of the entry block. -/
def stateAt (engine : ForwardSymbolicEngine) {port : IdaPort} {funcEa : Nat}
    (G : ConsistentCfg port funcEa) (start : AbstractState) (ea : Nat) : AbstractState :=
  engine.runSteps funcEa (before (G.tile G.entry) ea) start

/-- The callbacks agree with the state at every address of the entry block. -/
def Callbacks.Agreeing (engine : ForwardSymbolicEngine) {port : IdaPort} {funcEa : Nat}
    (G : ConsistentCfg port funcEa) (arg : Option Int) (start : AbstractState)
    (cb : Callbacks) : Prop :=
  ∀ ea, G.entry.startEa ≤ ea → ea < G.entry.endEa →
    Simulates port funcEa arg cb ea (stateAt engine G start ea)

section Demands

variable {engine : ForwardSymbolicEngine} {self : BackwardResolver} {funcEa loops ea : Nat}
variable {G : ConsistentCfg self.port funcEa} {arg : Option Int} {start : AbstractState}
variable {cb : Callbacks} {t : List (Event Resolver)} {v : ValueLattice}
variable {loc : Location} {p : Place}
variable (forward : engine.registry = defaultRegistry) (backward : self.registry = defaultRegistry)
variable (ports : self.port = engine.port)
variable (plain : ∀ i ∈ G.tile G.entry, PlainViews self.port i)
variable (flags : ∀ i ∈ G.tile G.entry, ExactFlags i)
include forward ports plain flags

/-- Where the walk finds nothing, the place is what it was at the start, or vague. -/
theorem kept_stateAt (mirrors : Mirrors loc p) (whole : WholePlace self.port p)
    (clear : ∀ j ∈ before (G.tile G.entry) ea, ¬ Defines (findPlace self cb funcEa p) j) :
    Kept arg (start.read loc) ((stateAt engine G start ea).read loc) := by
  rw [ports] at whole
  apply kept_runSteps forward _ _ mirrors whole
  · intro i member
    rw [← ports]
    exact missed_of_not_defines (clear i member)
  · intro i member
    rw [← ports]
    exact plain i (mem_of_before member)
  · intro i member
    exact flags i (mem_of_before member)

include backward

/-- The value of the last definition before an address agrees with the state there. -/
theorem definition_agrees (nested : cb.Agreeing engine G arg start) (mirrors : Mirrors loc p)
    (whole : WholePlace self.port p) {pre post : List Instruction} {i : Instruction}
    (split : before (G.tile G.entry) ea = pre ++ i :: post)
    (clear : ∀ j ∈ post, ¬ Defines (findPlace self cb funcEa p) j)
    (honest : HonestTrace self.port t) (found : Found (findPlace self cb funcEa p) t i v) :
    Agrees arg ((stateAt engine G start ea).read loc) v := by
  rcases found with ⟨definition, t', known, sub, computed⟩
  rcases Option.map_eq_some_iff.mp known with ⟨finding, placed, rfl⟩
  have tiles := G.tiled G.entry G.entry_mem
  rcases tiles.before_extends ea with ⟨rest, whole'⟩
  have tile : G.tile G.entry = pre ++ i :: (post ++ rest) := by
    rw [← whole', split]
    simp
  have member : i ∈ G.tile G.entry := by simp [tile]
  have later (j : Instruction) (inside : j ∈ post) : j ∈ G.tile G.entry := by
    simp [tile, inside]
  have bounds := tiles.bounds member
  have sim : Simulates self.port funcEa arg cb i.ea (stateAt engine G start i.ea) :=
    nested i.ea bounds.1 bounds.2
  rw [stateAt, G.before_split G.entry_mem tile] at sim
  have views := plain i member
  rw [ports] at sim honest whole placed views
  have here := agrees_step forward backward ports (flags i member) views sim (honest.sub sub)
    mirrors whole placed computed
  rw [stateAt, split, runSteps_append]
  apply here.keep
  apply kept_runSteps forward _ _ mirrors whole
  · intro j inside
    rw [← ports]
    exact missed_of_not_defines (clear j inside)
  · intro j inside
    rw [← ports]
    exact plain j (later j inside)
  · intro j inside
    exact flags j (later j inside)

variable (opened : G.cfg.predecessors G.entry = [] ∨ ∀ loc, Vague arg (start.read loc))
include opened

/-- What the walk in the entry block reports agrees with the state. -/
theorem walk_agrees {ρ : Type} {paths : Paths ρ} (cov : ρ → Prop)
    (nested : cb.Agreeing engine G arg start) (mirrors : Mirrors loc p)
    (whole : WholePlace self.port p) (lo : G.entry.startEa ≤ ea) (hi : ea < G.entry.endEa)
    (honest : HonestTrace self.port t) (refused : cov (paths.ofValue budgetExceeded))
    (source : cov paths.noPredecessor)
    (vague : Vague arg ((stateAt engine G start ea).read loc) → ∀ w, cov w)
    (values : ∀ u, Agrees arg ((stateAt engine G start ea).read loc) u → cov (paths.ofValue u))
    {bound : Nat} {w : ρ} (walked : Exec (walkBlock paths self.port G.cfg
      (findPlace self cb funcEa p) loops bound ea G.entry []) t w) : cov w := by
  cases bound with
  | zero => exact (not_exec_diverge walked).elim
  | succ bound =>
      cases walked_of_exec G.entry_mem lo hi.le honest walked with
      | refused => exact refused
      | found split clear found =>
          exact values _ (definition_agrees forward backward ports plain flags nested mirrors whole
            split clear honest found)
      | cycle _ again => cases again
      | source => exact source
      | joined clear some' =>
          rcases opened with none' | started
          · exact (some' none').elim
          · -- nothing is found, so the state has what it started from
            apply vague
            apply (started loc).keep
            exact kept_stateAt forward ports plain flags mirrors whole clear

/-- The register walk reports only what agrees. -/
def RegisterPath.Agreeing (arg : Option Int) (x : ValueLattice) (w : RegisterPath) : Prop :=
  ∀ u, w = .value u → Agrees arg x u

/-- The memory walk reports only what agrees. -/
def MemoryPath.Agreeing (arg : Option Int) (x : ValueLattice) (w : MemoryPath) : Prop :=
  ∀ u, w = .value u → Agrees arg x u

variable (narrow : ∀ q, ¬ self.port.Whole q → Vague arg (start.read (.reg (some q))))
include narrow

theorem resolveRegisterImpl_agrees (nested : cb.Agreeing engine G arg start) {q : Nat}
    (lo : G.entry.startEa ≤ ea) (hi : ea < G.entry.endEa) (honest : HonestTrace self.port t)
    (answered : Exec (self.resolveRegisterImpl loops cb (some q) ea) t v) :
    Agrees arg ((stateAt engine G start ea).read (.reg (some q))) v := by
  by_cases whole : self.port.Whole q
  · rcases resolveRegisterImpl_cases G.entry_mem lo hi honest answered with
      ⟨-, rfl⟩ | ⟨t₁, sub, w, walked, value⟩
    · exact .of_unknown rfl
    · have agreeing := walk_agrees (p := .reg q) forward backward ports plain flags opened
        (RegisterPath.Agreeing arg ((stateAt engine G start ea).read (.reg (some q)))) nested
        (.reg q) whole lo hi (honest.sub sub)
        (by rintro u ⟨⟩; exact .of_unknown rfl) (by rintro u ⟨⟩; exact .of_unknown rfl)
        (fun vague _ _ _ => vague.agrees) (by rintro u agrees _ ⟨⟩; exact agrees) walked
      rcases value with same | ⟨-, rfl⟩
      · exact agreeing v same
      · exact .of_unknown rfl
  · apply Vague.agrees
    have vague := narrow q whole
    rw [ports] at whole
    apply vague_runSteps forward _ _ whole vague
    · intro i member
      rw [← ports]
      exact plain i (mem_of_before member)
    · intro i member
      exact flags i (mem_of_before member)

omit narrow in
theorem resolveMemoryImpl_agrees (nested : cb.Agreeing engine G arg start) {k : StackKey}
    {base : Option Nat} {disp : Int} {size : Nat}
    (location : memoryLocation self.port base disp ea funcEa = k.location)
    (lo : G.entry.startEa ≤ ea) (hi : ea < G.entry.endEa) (honest : HonestTrace self.port t)
    (answered : Exec (self.resolveMemoryImpl loops cb base disp ea size) t v) :
    Agrees arg ((stateAt engine G start ea).read (.cell k)) v := by
  rcases resolveMemoryImpl_cases G.entry_mem lo hi honest answered with
    ⟨-, rfl⟩ | ⟨t₁, sub, w, walked, value⟩
  · exact .of_unknown rfl
  · rw [location] at walked
    have agreeing := walk_agrees (p := .cell k.location) forward backward ports plain flags opened
      (MemoryPath.Agreeing arg ((stateAt engine G start ea).read (.cell k))) nested
      (.cell k) trivial lo hi (honest.sub sub)
      (by rintro u ⟨⟩; exact .of_unknown rfl) (by rintro u ⟨⟩)
      (fun vague _ _ _ => vague.agrees) (by rintro u agrees _ ⟨⟩; exact agrees) walked
    rcases value with same | ⟨-, t₂, -, fallback⟩
    · exact agreeing v same
    · exact .of_silent (fallbackDereference_silent fallback)

/-- Callbacks agree at every nesting depth. -/
theorem callbacks_agree (depth : Nat) :
    (self.callbacks loops depth).Agreeing engine G arg start := by
  induction depth with
  | zero =>
      intro ea lo hi loc p t v mirrors honest answered
      cases mirrors with
      | reg q => exact (not_exec_diverge answered).elim
      | cell k =>
          rcases answered with ⟨_, _, _, _, answered⟩
          exact (not_exec_diverge answered).elim
  | succ depth ih =>
      intro ea lo hi loc p t v mirrors honest answered
      cases mirrors with
      | reg q =>
          exact resolveRegisterImpl_agrees forward backward ports plain flags opened narrow ih lo hi
            honest answered
      | cell k =>
          rcases answered with ⟨base, disp, size, location, answered⟩
          exact resolveMemoryImpl_agrees forward backward ports plain flags opened ih location lo hi
            honest answered

end Demands

/-! ## Both answers -/

namespace ForwardSymbolicEngine

/-- The limits let a block of `n` instructions be visited and simulated. -/
def Affords (self : ForwardSymbolicEngine) (n : Nat) : Prop :=
  exceeds self.maxBlockVisits 1 = false ∧ exceeds self.maxInstructions n = false

/-- A block for which a state is recorded was visited under the limit. -/
theorem visits_of_recorded {self : ForwardSymbolicEngine} {bound n : Nat} {walk : Walk}
    {w : WalkState}
    (passes : Loop.Passes finished (self.visit bound walk) walk.start w)
    {s : AbstractState} (recorded : w.inStates n = some s) :
    exceeds self.maxBlockVisits 1 = false := by
  induction passes generalizing s with
  | refl => cases recorded
  | tail _ last ih =>
      rcases visited_of_pass last with ⟨_, start, rest, _, visited⟩
      cases visited with
      | noBlock => exact ih recorded
      | refused => exact ih recorded
      | unavailable => exact ih recorded
      | unchanged => exact ih recorded
      | updated _ within => exact exceeds_mono (by omega) within

end ForwardSymbolicEngine

section Answers

variable {engine : ForwardSymbolicEngine} {funcEa bound targetEa r : Nat} {argIndex : Int}
variable {G : ConsistentCfg engine.port funcEa} {x : ValueLattice}

/-- In a function of one block, the forward engine answers from its entry state, and within its
limits. -/
theorem answer_of_single (builtin : engine.registry = defaultRegistry)
    (single : G.cfg.blocks = [G.entry])
    (answer : engine.resolveAt bound funcEa argIndex targetEa (some r) = some x)
    (known : x.isKnown) :
    engine.Affords (G.tile G.entry).length ∧
      (G.entry.startEa ≤ targetEa ∧ targetEa < G.entry.endEa) ∧
        x = (stateAt engine G (seed r argIndex) targetEa).getRegister (some r) := by
  cases atTarget : (buildCfg engine.port funcEa).blockContaining targetEa with
  | none =>
      have atEntry := G.blockContaining_entry
      rw [resolveAt] at answer
      dsimp only at answer
      rw [isEmpty_of_blockContaining atEntry, if_neg Bool.false_ne_true, atEntry,
        atTarget] at answer
      cases answer
      cases known
  | some b =>
      have member : b ∈ G.cfg.blocks := List.mem_of_find?_eq_some atTarget
      have inside := List.find?_some atTarget
      simp only [decide_eq_true_eq] at inside
      have entry : b = G.entry := by
        rw [single] at member
        exact List.mem_singleton.mp member
      subst entry
      have answered := answer
      rw [ConsistentCfg.resolveAt_eq G.entry_mem inside.1 inside.2] at answered
      cases run : engine.runWorklist bound (G.walk argIndex r) with
      | none =>
          rw [run] at answered
          cases answered
      | some w =>
          have ok := not_exceeded_of_known G.blockContaining_entry run answer known
          rcases Loop.passes_of_run run with ⟨passes, _⟩
          have consistent :=
            consistent_of_passes builtin (ConsistentCfg.proper argIndex r) passes ok
          rw [run, Option.bind_some] at answered
          cases recorded : w.inStates G.entry.startEa with
          | none =>
              rcases ConsistentCfg.readTarget_unrecorded ok recorded with ⟨v, same, unknown⟩
              rw [same] at answered
              cases answered
              rw [unknown] at known
              cases known
          | some s =>
              have seeded : s = seed r argIndex := consistent.descending.entry s recorded
              rw [ConsistentCfg.readTarget_recorded consistent ok G.entry_mem inside.2
                recorded] at answered
              cases answered
              rcases consistent.simulated _ s _ recorded (G.byStart_startEa G.entry_mem) with
                ⟨used, out, used', whole⟩
              have sweep := (G.tiled _ G.entry_mem).sweep (G.decoded _ G.entry_mem) (Nat.le_refl _)
              rw [G.before_endEa G.entry_mem] at sweep
              rcases simulate_used sweep whole with ⟨count, fits⟩
              have nonempty := (G.tiled _ G.entry_mem).ne_nil (G.nonempty _ G.entry_mem)
              have affords : engine.Affords (G.tile G.entry).length :=
                ⟨visits_of_recorded passes recorded, exceeds_mono (by omega) (fits nonempty)⟩
              exact ⟨affords, inside, by rw [stateAt, seeded]⟩

/-- The entry state knows nothing but the seeded argument. -/
theorem vague_seed {arg : Option Int} {loc : Location} (other : loc ≠ .reg (some r) ∨ arg = none) :
    Vague arg ((seed r argIndex).read loc) := by
  rw [seed, read_setRegister]
  split
  · rename_i tracked
    constructor
    · intro d k same
      cases same
    · intro n known
      rw [other.resolve_left (not_not_intro tracked)] at known
      cases known
  · rw [read_empty]
    exact vague_unknown _ _

end Answers

/-- The two engines never contradict each other in a function of one block: two concrete
answers are the same value, and if the block does not branch back to itself then the
resolver has no concrete answer where the forward engine reports the argument. -/
theorem engines_agree {port : IdaPort} {funcEa : Nat} (G : ConsistentCfg port funcEa)
    (single : G.cfg.blocks = [G.entry]) (flags : ∀ i ∈ G.tile G.entry, ExactFlags i)
    (plain : ∀ i ∈ G.tile G.entry, PlainViews port i) {r : Nat} (whole : port.Whole r)
    (maxInstructions maxBlockVisits : Option Nat)
    (loopWidenAfter maxSteps maxBlocks bound targetEa : Nat) (argIndex : Int)
    {x y : ValueLattice}
    (forward : (ForwardSymbolicEngine.mk port defaultRegistry maxInstructions maxBlockVisits
      loopWidenAfter).resolveAt bound funcEa argIndex targetEa (some r) = some x)
    (backward : (BackwardResolver.mk port defaultRegistry maxSteps maxBlocks).resolveRegister r
      targetEa = some y) :
    (∀ d k d' k', x = .concrete d k → y = .concrete d' k' → d = d' ∧ k = k') ∧
      (G.cfg.predecessors G.entry = [] → x = .symbolic ("arg" ++ toString argIndex) →
        ∀ d k, y ≠ .concrete d k) := by
  let engine : ForwardSymbolicEngine :=
    ⟨port, defaultRegistry, maxInstructions, maxBlockVisits, loopWidenAfter⟩
  let self : BackwardResolver := ⟨port, defaultRegistry, maxSteps, maxBlocks⟩
  rcases Option.map_eq_some_iff.mp backward with ⟨⟨v, budget, trace⟩, ran, rfl⟩
  rcases run_eq_some.mp ran with ⟨exec, answered⟩
  have agrees (arg : Option Int) (opened : G.cfg.predecessors G.entry = [] ∨ arg = none)
      (known : x.isKnown) : Agrees arg x v := by
    rcases answer_of_single rfl single forward known with ⟨-, ⟨lo, hi⟩, same⟩
    have narrow (q : Nat) (part : ¬ port.Whole q) :
        Vague arg ((seed r argIndex).read (.reg (some q))) := by
      apply vague_seed
      left
      intro same
      cases same
      exact part whole
    have started : G.cfg.predecessors G.entry = [] ∨
        ∀ loc, Vague arg ((seed r argIndex).read loc) :=
      opened.imp_right fun none' _ => vague_seed (Or.inr none')
    have sim : (self.callbacks self.fuel self.fuel).Agreeing engine G arg (seed r argIndex) :=
      @callbacks_agree engine self funcEa self.fuel G arg _ rfl rfl rfl plain flags started narrow
        self.fuel
    rw [same]
    exact sim targetEa lo hi (.reg r) (honest_of_answers answered) exec
  constructor
  · rintro d k d' k' rfl rfl
    rcases agrees none (Or.inr rfl) rfl d' k' rfl with same | vague
    · cases same
      exact ⟨rfl, rfl⟩
    · exact (vague.notConcrete d k rfl).elim
  · rintro source rfl d k rfl
    rcases agrees (some argIndex) (Or.inl source) rfl d k rfl with same | vague
    · cases same
    · exact vague.notArgument argIndex rfl rfl

end IDAnalysister
