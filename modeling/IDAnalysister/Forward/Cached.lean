import IDAnalysister.Forward.Engine
import IDAnalysister.Library.Evaluation
import IDAnalysister.Session.State

/-!
# The forward engine of a session

`ForwardSymbolicEngine` as it runs inside a session: every instruction comes from the session's
`InstructionCache`, everything else from the port. When the cache answers as the port does for
the addresses in the blocks of the function, the engine computes what `resolveAt` does, and those
are the only addresses it asks for (`resolveAtCached_computes`).
-/

namespace IDAnalysister

open Effect Prog

namespace ForwardSymbolicEngine

variable (self : ForwardSymbolicEngine)

/-! ## The engine, with `self.cache.get` -/

/-- The loop of `_simulate_block` up to `stop`, as `simulate`. -/
def simulateCached (funcEa stop : Nat) : Nat → Nat → Nat → AbstractState →
    Prog Session (AbstractState × Nat × Bool)
  | 0, ea, used, s => if stop ≤ ea then .pure (s, used, false) else .diverge
  | bound + 1, ea, used, s =>
      if stop ≤ ea then .pure (s, used, false)
      else
        (Session.resolve (.get ea)).bind fun fetched =>
          match fetched with
          | none => simulateCached funcEa stop bound (ea + 1) used s
          | some i =>
              if exceeds self.maxInstructions (used + 1) then .pure (s, used + 1, true)
              else simulateCached funcEa stop bound i.nextEa (used + 1) (self.step i s funcEa)

/-- `_simulate_block`. -/
def simulateBlockCached (bound funcEa : Nat) (block : BasicBlockInfo) (s : AbstractState)
    (used : Nat) (stopBefore : Option Nat := none) :
    Prog Session (AbstractState × Nat × Bool) :=
  let stop := match stopBefore with
    | none => block.endEa
    | some ea => min block.endEa ea
  self.simulateCached funcEa stop bound block.startEa used s

/-- One pass of the worklist loop. -/
def visitCached (bound : Nat) (walk : Walk) (w : WalkState) : Prog Session WalkState :=
  match w.worklist with
  | [] => .pure w
  | start :: rest =>
      match walk.cfg.byStart start with
      | none => .pure { w with worklist := rest }
      | some block =>
          let visits := w.visitCounts start + 1
          let counts := Function.update w.visitCounts start visits
          if exceeds self.maxBlockVisits visits then
            .pure { w with worklist := rest, visitCounts := counts }
          else
            match joinPredecessorStates walk block w.outStates with
            | none => .pure { w with worklist := rest, visitCounts := counts }
            | some joined =>
                let computed := self.computedIn (w.inStates start) joined visits
                if w.inStates start = some computed then
                  .pure { w with worklist := rest, visitCounts := counts }
                else do
                  let (out, used, exceeded) ←
                    self.simulateBlockCached bound walk.funcEa block computed w.instrUsed
                  .pure
                    { worklist :=
                        if exceeded then rest
                        else rest ++ (walk.cfg.successors block).map (·.startEa)
                      inStates := Function.update w.inStates start (some computed)
                      outStates := Function.update w.outStates start (some out)
                      visitCounts := counts
                      instrUsed := used
                      budgetExceeded := exceeded }

/-- The part of `resolve_at` behind the loop. -/
def readTargetCached (bound : Nat) (walk : Walk) (w : WalkState) (target : BasicBlockInfo)
    (targetEa initialReg : Nat) : Prog Session ValueLattice :=
  if w.budgetExceeded then
    .pure (.unknown .budgetExceeded
      "forward walk exceeded its instruction budget before converging")
  else
    match w.inStates target.startEa with
    | none => .pure (.unknown .noDefinitionFound "target block never reached in forward walk")
    | some targetIn => do
        let (final, _, exceeded) ←
          self.simulateBlockCached bound walk.funcEa target targetIn 0 (some targetEa)
        if exceeded then
          .pure (.unknown .budgetExceeded "target block exceeded its instruction budget")
        else .pure (final.getRegister (some initialReg))

/-- `resolve_at`. -/
def resolveAtCached (bound funcEa : Nat) (argIndex : Int) (targetEa : Nat)
    (initialReg : Option Nat) : Prog Session ValueLattice :=
  match initialReg with
  | none =>
      .pure (.unknown .unsupportedOperandShape
        "forward tracking of stack-passed arguments is not supported")
  | some reg =>
      let cfg := buildCfg self.port funcEa
      if cfg.isEmpty then .pure (.unknown .noDefinitionFound "no CFG for function")
      else
        match cfg.blockContaining funcEa, cfg.blockContaining targetEa with
        | some entry, some target => do
            let walk : Walk := ⟨funcEa, cfg, entry, seed reg argIndex⟩
            let w ← Prog.loop finished (self.visitCached bound walk) bound walk.start
            self.readTargetCached bound walk w target targetEa reg
        | _, _ => .pure (.unknown .noDefinitionFound "entry or target not within function")

/-! ## What it computes -/

/-- The address lies in a block of the function. -/
def InFunction (port : IdaPort) (funcEa ea : Nat) : Prop :=
  ∃ block ∈ (buildCfg port funcEa).blocks, block.startEa ≤ ea ∧ ea < block.endEa

/-- The answers of the port, with the budget of no query. -/
def portAnswer (e : ParamExtractor) (o : SessionOp) : Session.Ans o :=
  (e.plainAnswer o e.resolver.freshBudget).1

/-- Only instructions of the function are fetched. -/
inductive FetchesIn (port : IdaPort) (funcEa : Nat) : SessionOp → Prop
  | get {ea : Nat} : InFunction port funcEa ea → FetchesIn port funcEa (.resolver (.get ea))

variable {self} {e : ParamExtractor} {bound funcEa : Nat} {walk : Walk}

/-- Going on from what a block leaves. -/
abbrev Computes (e : ParamExtractor) (funcEa : Nat) {α : Type} (p : Prog Session α)
    (r : Option α) : Prop :=
  Evaluates (portAnswer e) (FetchesIn e.port.toIdaPort funcEa) p r

section

variable (same : self.port = e.port.toIdaPort)
variable (decodes : ∀ ea i, e.port.decodeAt ea = some i → ea < i.nextEa)

include same decodes

theorem simulateCached_computes {block : BasicBlockInfo}
    (inside : block ∈ (buildCfg e.port.toIdaPort funcEa).blocks) {stop : Nat}
    (within : stop ≤ block.endEa) {ea : Nat} (after : block.startEa ≤ ea) (used : Nat)
    (s : AbstractState) : Computes e funcEa (self.simulateCached funcEa stop bound ea used s)
      (self.simulate funcEa stop bound ea used s) := by
  induction bound generalizing ea used s with
  | zero =>
      unfold simulateCached simulate
      split
      · exact .pure _
      · exact .diverge
  | succ bound ih =>
      unfold simulateCached simulate
      split
      · exact .pure _
      · rename_i before
        refine .call (.get ⟨block, inside, after, by omega⟩) ?_
        have answer : portAnswer e (.resolver (.get ea)) = self.port.decodeAt ea := by
          rw [same]
          rfl
        rw [answer]
        cases decoded : self.port.decodeAt ea with
        | none => exact ih (by omega) used s
        | some i =>
            dsimp only [bind_pure_left]
            split
            · exact .pure _
            · rw [same] at decoded
              exact ih (by have := decodes ea i decoded; omega) _ _

theorem simulateBlockCached_computes {block : BasicBlockInfo}
    (inside : block ∈ (buildCfg e.port.toIdaPort funcEa).blocks) (s : AbstractState) (used : Nat)
    (stopBefore : Option Nat) :
    Computes e funcEa (self.simulateBlockCached bound funcEa block s used stopBefore)
      (self.simulateBlock bound funcEa block s used stopBefore) := by
  cases stopBefore with
  | none => exact simulateCached_computes same decodes inside (Nat.le_refl _) (Nat.le_refl _) _ _
  | some ea =>
      exact simulateCached_computes same decodes inside (Nat.min_le_left _ _) (Nat.le_refl _) _ _

theorem visitCached_computes (graph : walk.cfg = buildCfg e.port.toIdaPort walk.funcEa)
    (w : WalkState) : Computes e walk.funcEa (self.visitCached bound walk w)
      (self.visit bound walk w) := by
  unfold visitCached visit
  cases w.worklist with
  | nil => exact .pure _
  | cons start rest =>
      dsimp only
      cases found : walk.cfg.byStart start with
      | none => exact .pure _
      | some block =>
          have inside : block ∈ (buildCfg e.port.toIdaPort walk.funcEa).blocks := by
            rw [← graph]
            exact List.mem_reverse.mp (List.mem_of_find?_eq_some found)
          dsimp only
          split
          · exact .pure _
          · cases joinPredecessorStates walk block w.outStates with
            | none => exact .pure _
            | some joined =>
                dsimp only
                split
                · exact .pure _
                · exact (simulateBlockCached_computes same decodes inside _ _ none).bind
                    fun _ => .pure _

theorem readTargetCached_computes (graph : walk.cfg = buildCfg e.port.toIdaPort walk.funcEa)
    {target : BasicBlockInfo} (inside : target ∈ walk.cfg.blocks) (w : WalkState)
    (targetEa initialReg : Nat) : Computes e walk.funcEa
      (self.readTargetCached bound walk w target targetEa initialReg)
      (self.readTarget bound walk w target targetEa initialReg) := by
  unfold readTargetCached readTarget
  split
  · exact .pure _
  · cases w.inStates target.startEa with
    | none => exact .pure _
    | some targetIn =>
        refine (simulateBlockCached_computes same decodes (graph ▸ inside) _ _ _).bind fun out => ?_
        dsimp only
        split
        · exact .pure _
        · exact .pure _

/-- With the instructions of the function as the port has them, the engine computes `resolveAt`,
and it fetches no others. -/
theorem resolveAtCached_computes (argIndex : Int) (targetEa : Nat) (initialReg : Option Nat) :
    Computes e funcEa (self.resolveAtCached bound funcEa argIndex targetEa initialReg)
      (self.resolveAt bound funcEa argIndex targetEa initialReg) := by
  unfold resolveAtCached resolveAt
  cases initialReg with
  | none => exact .pure _
  | some reg =>
      dsimp only
      split
      · exact .pure _
      · cases (buildCfg self.port funcEa).blockContaining funcEa with
        | none => exact .pure _
        | some entry =>
            cases found : (buildCfg self.port funcEa).blockContaining targetEa with
            | none => exact .pure _
            | some target =>
                let walk : Walk := ⟨funcEa, buildCfg self.port funcEa, entry, seed reg argIndex⟩
                have graph : walk.cfg = buildCfg e.port.toIdaPort walk.funcEa := by
                  change buildCfg self.port funcEa = _
                  rw [same]
                refine (Evaluates.loop (visitCached_computes same decodes graph) bound
                  walk.start).bind fun w => ?_
                exact readTargetCached_computes same decodes graph
                  (List.mem_of_find?_eq_some found) w targetEa reg

end

end ForwardSymbolicEngine

end IDAnalysister
