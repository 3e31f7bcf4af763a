import IDAnalysister.Agreement.StraightLine
import IDAnalysister.Forward.EntryLoop

/-!
# One block, exactly

When the block of a function branches back to its start, the forward engine still reports the
argument there, and the resolver may find a definition round the loop. `engines_agree_iff`
says when the two answers do not contradict each other: the forward engine reports the
argument exactly where the instructions of the block carry it, and the limits let the block
be simulated.
-/

namespace IDAnalysister

open AbstractState ForwardSymbolicEngine

/-! ## Where a symbol is carried -/

namespace ForwardSymbolicEngine

/-- The locations in which an instruction leaves the symbol, whatever the state is, as long as
all of `T` hold it. -/
def carriedStep (self : ForwardSymbolicEngine) (funcEa : Nat) (e : String) (T : Set Location)
    (i : Instruction) : Set Location :=
  {l | ∀ s, (∀ l' ∈ T, s.read l' = .symbolic e) → (self.step i s funcEa).read l = .symbolic e}

/-- The locations to which instructions carry the symbol that `T` holds. -/
def carried (self : ForwardSymbolicEngine) (funcEa : Nat) (e : String) (is : List Instruction)
    (T : Set Location) : Set Location :=
  is.foldl (self.carriedStep funcEa e) T

variable {self : ForwardSymbolicEngine} {funcEa : Nat} {e : String}

/-- A step leaves the symbol where it would leave it in any state with the symbol in the same
places. -/
theorem carriedStep_eq (builtin : self.registry = defaultRegistry) (i : Instruction)
    (s : AbstractState) : self.carriedStep funcEa e {l | s.read l = .symbolic e} i =
      {l | (self.step i s funcEa).read l = .symbolic e} := by
  ext l
  constructor
  · intro always
    exact always s fun _ holds => holds
  · intro left t holds
    exact (step_tame builtin funcEa i).carries e s t holds l left

/-- A run leaves the symbol where its instructions carry it. -/
theorem carried_eq (builtin : self.registry = defaultRegistry) (is : List Instruction)
    (s : AbstractState) : self.carried funcEa e is {l | s.read l = .symbolic e} =
      {l | (self.runSteps funcEa is s).read l = .symbolic e} := by
  induction is generalizing s with
  | nil => rfl
  | cons i is ih =>
      rw [carried, List.foldl_cons, carriedStep_eq builtin]
      exact ih (self.step i s funcEa)

/-- At first the argument stands in the seeded register only. -/
theorem seeded_eq (r : Nat) (argIndex : Int) :
    {l | (seed r argIndex).read l = .symbolic ("arg" ++ toString argIndex)} =
      {.reg (some r)} := by
  ext l
  simp only [Set.mem_ofPred_eq, Set.mem_singleton_iff, seed, read_setRegister]
  constructor
  · intro holds
    by_contra other
    rw [if_neg other, read_empty] at holds
    cases holds
  · intro here
    rw [if_pos here]

/-! ## The walk of one block -/

variable {bound : Nat} {walk : Walk} {w : WalkState}

/-- The seed is the entry state of the entry block, whatever its predecessors leave. -/
theorem joinPredecessorStates_entry {block : BasicBlockInfo}
    (found : walk.cfg.byStart walk.entry.startEa = some block) (outs : Nat → Option AbstractState) :
    joinPredecessorStates walk block outs = some walk.initial := by
  rw [joinPredecessorStates, if_pos (CfgModel.byStart_startEa found)]

/-- The first visit of the entry block records the seed for it and pushes its successors. -/
theorem visit_entry {block : BasicBlockInfo} {out : AbstractState} {used : Nat}
    (found : walk.cfg.byStart walk.entry.startEa = some block)
    (within : exceeds self.maxBlockVisits 1 = false)
    (simulated : self.simulateBlock bound walk.funcEa block walk.initial 0 =
      some (out, used, false)) :
    self.visit bound walk walk.start = some
      { worklist := (walk.cfg.successors block).map (·.startEa)
        inStates := Function.update (fun _ => none) walk.entry.startEa (some walk.initial)
        outStates := Function.update (fun _ => none) walk.entry.startEa (some out)
        visitCounts := Function.update (fun _ => 0) walk.entry.startEa 1
        instrUsed := used } := by
  unfold visit Walk.start
  dsimp only
  rw [found]
  dsimp only
  rw [joinPredecessorStates_entry found, if_neg (by simp [within])]
  refine (if_neg ?_).trans ?_
  · intro same
    cases same
  · rw [computedIn, simulated]
    rfl

/-- Popping the entry block again changes nothing but the counters. -/
theorem visit_again {rest : List Nat} (head : w.worklist = walk.entry.startEa :: rest)
    (recorded : w.inStates walk.entry.startEa = some walk.initial) :
    ∃ counts, self.visit bound walk w =
      some { w with worklist := rest, visitCounts := counts } := by
  rw [visit, head]
  dsimp only
  cases found : walk.cfg.byStart walk.entry.startEa with
  | none => exact ⟨_, rfl⟩
  | some block =>
      dsimp only
      split
      · exact ⟨_, rfl⟩
      · have value (visits : Nat) :
            self.computedIn (w.inStates walk.entry.startEa) walk.initial visits = walk.initial := by
          rw [recorded, computedIn, widen_self, ite_self]
        rw [joinPredecessorStates_entry found]
        dsimp only
        rw [value, if_pos recorded]
        exact ⟨_, rfl⟩

/-- Where nothing but the entry block is pending, the loop empties its list. -/
theorem exists_run_drained (recorded : w.inStates walk.entry.startEa = some walk.initial)
    (only : ∀ start ∈ w.worklist, start = walk.entry.startEa) (ok : w.budgetExceeded = false) :
    ∃ w', Loop.run finished (self.visit bound walk) w.worklist.length w = some w' ∧
      w'.inStates = w.inStates ∧ w'.budgetExceeded = false := by
  generalize listed : w.worklist = pending
  induction pending generalizing w with
  | nil => exact ⟨w, Loop.run_of_finished (by simp [finished, listed]), rfl, ok⟩
  | cons start rest ih =>
      have here : start = walk.entry.startEa := only start (by simp [listed])
      subst here
      rcases @visit_again self bound walk w rest listed recorded with ⟨counts, pass⟩
      rcases @ih { w with worklist := rest, visitCounts := counts } recorded
        (fun n member => only n (by simp [listed, member])) ok rfl with ⟨w', run, same, ok'⟩
      refine ⟨w', ?_, same, ok'⟩
      have more : finished w = false := by simp [finished, listed, ok]
      rw [List.length_cons, Loop.run, more, if_neg Bool.false_ne_true, pass]
      exact run

end ForwardSymbolicEngine

section OneBlock

variable {engine : ForwardSymbolicEngine} {funcEa targetEa r : Nat} {argIndex : Int}
variable {G : ConsistentCfg engine.port funcEa} {x : ValueLattice}

/-- Within the limits, the walk of a single block ends with the seed recorded for it. -/
theorem exists_walk_of_single (single : G.cfg.blocks = [G.entry])
    (affords : engine.Affords (G.tile G.entry).length) :
    ∃ bound w, engine.runWorklist bound (G.walk argIndex r) = some w ∧
      w.inStates G.entry.startEa = some (seed r argIndex) ∧ w.budgetExceeded = false := by
  have tiles := G.tiled G.entry G.entry_mem
  have sweep := tiles.sweep (G.decoded G.entry G.entry_mem) (Nat.le_refl _)
  rw [G.before_endEa G.entry_mem] at sweep
  have fits : exceeds engine.maxInstructions (0 + (G.tile G.entry).length) = false := by
    rw [Nat.zero_add]
    exact affords.2
  rcases exists_simulate_sweep sweep 0 fits funcEa (seed r argIndex) with ⟨enough, simulated⟩
  let pending := (G.cfg.successors G.entry).map (·.startEa)
  let bound := enough + pending.length + 1
  have whole := simulate_mono (show enough ≤ bound by omega) simulated
  let w : WalkState :=
    { worklist := pending
      inStates := Function.update (fun _ => none) G.entry.startEa (some (seed r argIndex))
      outStates := Function.update (fun _ => none) G.entry.startEa
        (some (engine.runSteps funcEa (G.tile G.entry) (seed r argIndex)))
      visitCounts := Function.update (fun _ => 0) G.entry.startEa 1
      instrUsed := 0 + (G.tile G.entry).length }
  have first : engine.visit bound (G.walk argIndex r) (G.walk argIndex r).start = some w :=
    visit_entry (G.byStart_startEa G.entry_mem) affords.1 whole
  have recorded : w.inStates G.entry.startEa = some (seed r argIndex) := by
    dsimp only [w]
    rw [Function.update_self]
  have only : ∀ start ∈ w.worklist, start = G.entry.startEa := by
    intro start member
    rcases List.mem_map.mp member with ⟨b, succ, rfl⟩
    rcases CfgModel.mem_successors.mp succ with ⟨_, _, found⟩
    have block := CfgModel.byStart_mem found
    rw [single] at block
    rw [List.mem_singleton.mp block]
  rcases @exists_run_drained engine bound (G.walk argIndex r) w recorded only rfl with
    ⟨w', run, same, ok⟩
  refine ⟨bound, w', ?_, same ▸ recorded, ok⟩
  have start : Loop.run finished (engine.visit bound (G.walk argIndex r)) (pending.length + 1)
      (G.walk argIndex r).start = some w' := by
    rw [Loop.run, if_neg (by simp [finished, Walk.start]), first]
    exact run
  exact Loop.run_mono (by omega) start

/-- The state that the walk reports at an address of the block. -/
theorem exists_answer_of_single (builtin : engine.registry = defaultRegistry)
    (single : G.cfg.blocks = [G.entry]) (affords : engine.Affords (G.tile G.entry).length)
    (lo : G.entry.startEa ≤ targetEa) (hi : targetEa < G.entry.endEa) :
    ∃ bound, engine.resolveAt bound funcEa argIndex targetEa (some r) =
      some ((stateAt engine G (seed r argIndex) targetEa).getRegister (some r)) := by
  rcases @exists_walk_of_single engine funcEa r argIndex G single affords with
    ⟨bound, w, run, recorded, ok⟩
  rcases Loop.passes_of_run run with ⟨passes, _⟩
  have consistent := consistent_of_passes builtin (ConsistentCfg.proper argIndex r) passes ok
  refine ⟨bound, ?_⟩
  rw [ConsistentCfg.resolveAt_eq G.entry_mem lo hi, run, Option.bind_some,
    ConsistentCfg.readTarget_recorded consistent ok G.entry_mem hi recorded]
  rfl

end OneBlock

/-- The 8-bit views of the fake port have numbers of their own and define no parent. -/
theorem FakeIdaPort.plainViews (fake : FakeIdaPort) (i : Instruction) :
    PlainViews fake.toPort i := by
  intro op _ _ q _
  simp only [IdaPort.Whole, toPort, registerView]
  cases narrow : subRegisters.lookup q with
  | some view =>
      dsimp only
      constructor
      · rintro _ ⟨⟩ _
        rfl
      · intro part
        refine ⟨_, rfl, ?_⟩
        intro same
        apply part
        intro _ same
        cases same
        exact same
  | none =>
      dsimp only
      split
      · constructor
        · rintro _ ⟨⟩ other
          exact (other rfl).elim
        · intro part
          refine (part ?_).elim
          intro _ same
          cases same
          rfl
      · constructor
        · intro view known
          cases known
        · intro part
          refine (part ?_).elim
          intro view known
          cases known

/-! ### A value spilled and reloaded -/

namespace Spill

open FakeIdaPort

def code : List Instruction :=
  [insn 0x401000 "mov" 5 [reg 0 0, imm 1 5], insn 0x401005 "mov" 3 [memDispl 0 5 (-8), reg 1 0],
    insn 0x401008 "mov" 3 [reg 0 1, memDispl 1 5 (-8)], insn 0x40100b "add" 3 [reg 0 1, imm 1 3],
    insn 0x40100e "ret" 1 []]

def block : BasicBlockInfo := ⟨0x401000, 0x40100f, [], []⟩

def port : IdaPort := FakeIdaPort.toPort
  { pointerSize := 4
    instructions := code
    funcBounds := [(0x401000, 0x40100f)]
    blocks := [(0x401000, [block])] }

def graph : ConsistentCfg port 0x401000 where
  tile _ := code
  entry := block
  entry_mem := by decide
  entry_startEa := rfl
  nonempty := by decide
  disjoint := by decide
  converse := by decide
  tiled := by decide
  decoded := by decide
  heads := by decide
  owner := by decide

def engine : ForwardSymbolicEngine := ⟨port, defaultRegistry, some 4000, some 64, 3⟩

def resolver : BackwardResolver := ⟨port, defaultRegistry, 200, 64⟩

theorem flags : ∀ i ∈ code, ExactFlags i := by
  intro i member
  simp only [code, List.mem_cons, List.not_mem_nil, or_false] at member
  rcases member with rfl | rfl | rfl | rfl | rfl
  all_goals constructor
  all_goals decide

theorem whole {q : Nat} (general : q < 10) : port.Whole q := by
  intro view known
  exact ((FakeIdaPort.wholeReg rfl general) 0 view (Or.inl rfl) known).1

end Spill

/-! ### A block that jumps back to its start -/

namespace EntryLoop

theorem flags : ∀ i ∈ [setEax, back], ExactFlags i := by
  intro i member
  simp only [List.mem_cons, List.not_mem_nil, or_false] at member
  rcases member with rfl | rfl
  all_goals constructor
  all_goals decide

def resolver : BackwardResolver := ⟨port, defaultRegistry, 200, 64⟩

theorem whole {q : Nat} (general : q < 10) : port.Whole q := by
  intro view known
  exact ((FakeIdaPort.wholeReg rfl general) 0 view (Or.inl rfl) known).1

end EntryLoop

end IDAnalysister
