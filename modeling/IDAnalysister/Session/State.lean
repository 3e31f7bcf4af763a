import IDAnalysister.Backward.Pushes
import IDAnalysister.Conventions
import IDAnalysister.Library.Cache

/-!
# The state of an analysis session

What one `ParamExtractor` keeps between calls: the instruction and cross-reference
caches (`core/insn_cache.py`), and in its resolver the budget of the last query and the
memo tables of function starts and graphs.

A session program is a program over the resolver's effects, the replacement of the budget
that starts a query, the cross-reference lookup and the decompiler. `sessionHandler`
answers it from the tables. `Valid port` says that the tables hold nothing but answers of
`port`; every call keeps that, and from a valid state a query is answered as it is
without any table (`query_served`).
-/

namespace IDAnalysister

open Effect Prog Memo

/-! ## The cache -/

/-- `InstructionCache`, without the port it reads through. -/
structure InstructionCache where
  insnCache : LruCache Nat (Option Instruction)
  xrefCache : LruCache Nat (List Nat)

namespace InstructionCache

def new (maxEntries : Nat) : InstructionCache := ⟨.empty maxEntries, .empty maxEntries⟩

def get (c : InstructionCache) (port : FacadePort) (ea : Nat) :
    Option Instruction × InstructionCache :=
  let (answer, insnCache) := c.insnCache.fetch port.decodeAt ea
  (answer, { c with insnCache })

def codeRefsTo (c : InstructionCache) (port : FacadePort) (ea : Nat) :
    List Nat × InstructionCache :=
  let (answer, xrefCache) := c.xrefCache.fetch port.codeRefsTo ea
  (answer, { c with xrefCache })

/-- `invalidate`: without an address everything is flushed. -/
def invalidate (c : InstructionCache) : Option Nat → InstructionCache
  | none => ⟨c.insnCache.clear, c.xrefCache.clear⟩
  | some ea => ⟨c.insnCache.pop ea, c.xrefCache.pop ea⟩

end InstructionCache

/-! ## The state and its effects -/

structure SessionState where
  cache : InstructionCache
  budget : ResolutionBudget
  funcCache : Table Nat (Option Nat) := []
  cfgCache : Table Nat CfgModel := []

/-- The dictionary `HexraysBackend.resolve_call_args` answers with. -/
abbrev CallArgs := List (Nat × ValueLattice)

inductive SessionOp
  /-- `self._budget = ResolutionBudget(...)`. -/
  | renew
  | resolver (o : ResolverOp)
  | codeRefsTo (ea : Nat)
  | resolveCallArgs (callEa numArgs : Nat)

abbrev Session : Signature where
  Op := SessionOp
  Ans
    | .renew => Unit
    | .resolver o => Resolver.Ans o
    | .codeRefsTo _ => List Nat
    | .resolveCallArgs _ _ => Option CallArgs

/-- What one extractor is built from and never changes. -/
structure ParamExtractor where
  port : FacadePort
  registry : LocatorRegistry
  maxSteps : Nat := 200
  maxBlocks : Nat := 64
  cacheSize : Nat := 4096
  /-- The decompiler, when it was asked for and is available. -/
  hexrays : Option (Nat → Nat → Option CallArgs) := none

namespace ParamExtractor

variable (self : ParamExtractor)

def resolver : BackwardResolver where
  port := self.port.toIdaPort
  registry := self.registry
  maxSteps := self.maxSteps
  maxBlocks := self.maxBlocks

/-- The state the constructor leaves. -/
def new : SessionState where
  cache := .new self.cacheSize
  budget := self.resolver.freshBudget

/-- `_func_ea_for`. -/
def funcEaFor (ea : Nat) (s : SessionState) : Option Nat × SessionState :=
  let (answer, funcCache) := s.funcCache.fetch self.port.getFuncStart ea
  (answer, { s with funcCache })

/-- `_cfg_for`. -/
def cfgFor (funcEa : Nat) (s : SessionState) : CfgModel × SessionState :=
  let (answer, cfgCache) := s.cfgCache.fetch (buildCfg self.port.toIdaPort) funcEa
  (answer, { s with cfgCache })

def sessionHandler : Prog.Handler Session SessionState
  | .renew, s => ((), { s with budget := self.resolver.freshBudget })
  | .resolver .step, s => (s.budget.step.1, { s with budget := s.budget.step.2 })
  | .resolver .stepBlock, s => (s.budget.stepBlock.1, { s with budget := s.budget.stepBlock.2 })
  | .resolver (.get ea), s => ((s.cache.get self.port ea).1,
      { s with cache := (s.cache.get self.port ea).2 })
  | .resolver (.funcEaFor ea), s => self.funcEaFor ea s
  | .resolver (.cfgFor funcEa), s => self.cfgFor funcEa s
  | .resolver (.mark _), s => ((), s)
  | .codeRefsTo ea, s => ((s.cache.codeRefsTo self.port ea).1,
      { s with cache := (s.cache.codeRefsTo self.port ea).2 })
  | .resolveCallArgs callEa numArgs, s =>
      (self.hexrays.bind fun backend => backend callEa numArgs, s)

end ParamExtractor

/-- A resolver operation as a session program. -/
def Session.resolve (o : ResolverOp) : Prog Session (Resolver.Ans o) :=
  Prog.perform (S := Session) (SessionOp.resolver o)

/-- A resolver program as a session program; it goes on with the current budget. -/
def Session.lift {α : Type} (q : Query α) : Prog Session α := interpret Session.resolve q

/-- A query that starts from a new budget. -/
def Session.fresh {α : Type} (q : Query α) : Prog Session α :=
  .call (S := Session) SessionOp.renew fun _ => Session.lift q

/-! ## Valid states -/

/-- The tables hold answers of the port, and the budget has the resolver's limits. -/
structure SessionState.Valid (e : ParamExtractor) (s : SessionState) : Prop where
  insnCache : Faithful e.port.decodeAt s.cache.insnCache.entries
  xrefCache : Faithful e.port.codeRefsTo s.cache.xrefCache.entries
  funcCache : Faithful e.port.getFuncStart s.funcCache
  cfgCache : Faithful (buildCfg e.port.toIdaPort) s.cfgCache
  maxSteps : s.budget.maxSteps = e.maxSteps
  maxBlocks : s.budget.maxBlocks = e.maxBlocks

variable {e : ParamExtractor} {s s' : SessionState}

theorem ParamExtractor.new_valid (e : ParamExtractor) : e.new.Valid e where
  insnCache := faithful_nil _
  xrefCache := faithful_nil _
  funcCache := faithful_nil _
  cfgCache := faithful_nil _
  maxSteps := rfl
  maxBlocks := rfl

/-- The answer of an operation without any table, and the budget it leaves. -/
def ParamExtractor.plainAnswer (e : ParamExtractor) :
    (o : SessionOp) → ResolutionBudget → Session.Ans o × ResolutionBudget
  | .renew, _ => ((), e.resolver.freshBudget)
  | .resolver o, b => handler e.port.toIdaPort o b
  | .codeRefsTo ea, b => (e.port.codeRefsTo ea, b)
  | .resolveCallArgs callEa numArgs, b =>
      (e.hexrays.bind fun backend => backend callEa numArgs, b)

/-- A valid state and the budget in it. -/
def ValidWith (e : ParamExtractor) (s : SessionState) (b : ResolutionBudget) : Prop :=
  s.Valid e ∧ s.budget = b

/-- The tables change no answer, and no call makes them invalid. -/
theorem sessionHandler_mimics (e : ParamExtractor) :
    Mimics (ValidWith e) e.sessionHandler e.plainAnswer := by
  intro o s b holds
  rcases holds with ⟨valid, rfl⟩
  cases o with
  | renew => exact ⟨rfl, { valid with maxSteps := rfl, maxBlocks := rfl }, rfl⟩
  | codeRefsTo ea =>
      have spec := LruCache.fetch_spec valid.xrefCache ea
      exact ⟨spec.1, { valid with xrefCache := spec.2 }, rfl⟩
  | resolveCallArgs callEa numArgs => exact ⟨rfl, valid, rfl⟩
  | resolver o =>
      cases o with
      | step =>
          exact ⟨rfl, { valid with maxSteps := valid.maxSteps, maxBlocks := valid.maxBlocks }, rfl⟩
      | stepBlock =>
          exact ⟨rfl, { valid with maxSteps := valid.maxSteps, maxBlocks := valid.maxBlocks }, rfl⟩
      | get ea =>
          have spec := LruCache.fetch_spec valid.insnCache ea
          exact ⟨spec.1, { valid with insnCache := spec.2 }, rfl⟩
      | funcEaFor ea =>
          exact ⟨Table.fetch_fst valid.funcCache ea,
            { valid with funcCache := Table.fetch_faithful valid.funcCache ea }, rfl⟩
      | cfgFor funcEa =>
          exact ⟨Table.fetch_fst valid.cfgCache funcEa,
            { valid with cfgCache := Table.fetch_faithful valid.cfgCache funcEa }, rfl⟩
      | mark m => exact ⟨rfl, valid, rfl⟩

/-- Every program leaves a valid state, also when an exception ends it early. -/
theorem attempt_valid {α : Type} (p : Prog Session α) (limit : Option Nat) (valid : s.Valid e) :
    (attempt e.sessionHandler limit p s).2.Valid e :=
  (attempt_mimics (sessionHandler_mimics e) p limit ⟨valid, rfl⟩).2.1

/-- Valid states with the same budget answer a program alike. -/
theorem attempt_congr {α : Type} (p : Prog Session α) (limit : Option Nat) (valid : s.Valid e)
    (valid' : s'.Valid e) (same : s.budget = s'.budget) :
    (attempt e.sessionHandler limit p s).1 = (attempt e.sessionHandler limit p s').1 := by
  have left := attempt_mimics (sessionHandler_mimics e) p limit ⟨valid, rfl⟩
  have right := attempt_mimics (sessionHandler_mimics e) p limit ⟨valid', rfl⟩
  rw [left.1, right.1, same]

/-- A resolver program is answered as it is by the port alone. -/
theorem query_served {α : Type} {q : Query α} {a : α} {b : ResolutionBudget} (valid : s.Valid e)
    (ran : attempt (handler e.port.toIdaPort) none q s.budget = (some a, b)) :
    ∃ s', attempt e.sessionHandler none (Session.lift q) s = (some a, s') ∧ s'.Valid e ∧
      s'.budget = b := by
  have implements : Implements (ValidWith e) Session.resolve e.sessionHandler
      (handler e.port.toIdaPort) := by
    intro o s b holds
    rcases sessionHandler_mimics e (.resolver o) s b holds with ⟨same, next⟩
    refine ⟨(e.sessionHandler (.resolver o) s).2, ?_, next⟩
    simp only [Session.resolve, perform, attempt_call]
    rw [same]
    rfl
  rcases attempt_implements implements (R := ValidWith e) ⟨valid, rfl⟩ ran with ⟨s', served, holds⟩
  exact ⟨s', served, holds⟩

/-- A query that starts from a new budget answers from any valid state what it answers on
its own. -/
theorem fresh_served {q : Query ValueLattice} {v : ValueLattice} (valid : s.Valid e)
    (answered : (e.resolver.execute q).map (·.1) = some v) :
    ∃ s', attempt e.sessionHandler none (Session.fresh q) s = (some v, s') ∧ s'.Valid e := by
  rcases Option.map_eq_some_iff.mp answered with ⟨⟨_, b, t⟩, ran, rfl⟩
  have renewed : ({ s with budget := e.resolver.freshBudget } : SessionState).Valid e :=
    { valid with maxSteps := rfl, maxBlocks := rfl }
  rcases query_served renewed (attempt_of_run ran) with ⟨s', served, valid', -⟩
  exact ⟨s', served, valid'⟩

end IDAnalysister
