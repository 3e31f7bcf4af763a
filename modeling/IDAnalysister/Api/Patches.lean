import IDAnalysister.Api.ArgumentAt
import IDAnalysister.Api.Flush
import IDAnalysister.Forward.Cached
import IDAnalysister.Library.Stale

/-!
# A database that changes while a session goes on

A session during which the database is patched at any time, and addresses of the cache are
invalidated one by one or all at once. An address is stale when what the database says there has
changed since it was last invalidated. Whatever else was asked, and wherever exceptions struck,
`resolve_argument_at` then answers as it would without a cache on the database as it is now,
unless an address of the function is stale; it builds its graph anew, so remembered graphs do not
matter to it. Everything else answers as a new extractor does once no address is stale, if the
patches changed no function start and no graph (`session_coherent`).
-/

namespace IDAnalysister

open Effect Prog Memo

/-! ## `resolve_argument_at`, through the cache -/

/-- The arguments of `resolve_argument_at`, and the bound on its loops. -/
structure ForwardQuery where
  bound : Nat
  funcEa : Nat
  argIndex : Int
  targetEa : Nat
  convention : Option CallingConvention := none
  numArgs : Option Nat := none

namespace ParamExtractor

variable (self : ParamExtractor)

/-- The register that the convention puts the argument into, if the argument is in range. -/
def trackedReg (q : ForwardQuery) : Except String (Option (Option Nat)) :=
  match self.resolveConvention q.funcEa q.convention q.numArgs with
  | .error message => .error message
  | .ok (convention, numArgs) =>
      if 0 ≤ q.argIndex ∧ q.argIndex < numArgs then
        (convention.slots numArgs self.port).map fun slots =>
          slots[q.argIndex.toNat]?.map initialReg
      else .ok none

/-- `resolve_argument_at`. An exception in the forward walk, after so many of its fetches, is
caught; `none` as a value says that the bound was hit. -/
def resolveArgumentAtCached (q : ForwardQuery) (raisesAfter : Option Nat) (s : SessionState) :
    Except String (Option ValueLattice) × SessionState :=
  match self.trackedReg q with
  | .error message => (.error message, s)
  | .ok none => (.ok (some (.unknown .unsupportedOperandShape "argument index out of range")), s)
  | .ok (some reg) =>
      let ran := Prog.attempt self.sessionHandler raisesAfter
        (self.forwardEngine.resolveAtCached q.bound q.funcEa q.argIndex q.targetEa reg) s
      (.ok (if raisesAfter.isSome then some (.unknown' .internalError) else ran.1), ran.2)

/-- `resolve_argument_at` with instructions from the database. -/
def plainArgumentAt (q : ForwardQuery) (raises : Bool) : Except String (Option ValueLattice) :=
  self.resolveArgumentAt q.bound q.funcEa q.argIndex q.targetEa q.convention q.numArgs raises

theorem plainArgumentAt_eq (q : ForwardQuery) (raises : Bool) :
    self.plainArgumentAt q raises = match self.trackedReg q with
      | .error message => .error message
      | .ok none => .ok (some (.unknown .unsupportedOperandShape "argument index out of range"))
      | .ok (some reg) => .ok (if raises then some (.unknown' .internalError)
          else self.forwardEngine.resolveAt q.bound q.funcEa q.argIndex q.targetEa reg) := by
  unfold plainArgumentAt resolveArgumentAt trackedReg
  cases self.resolveConvention q.funcEa q.convention q.numArgs with
  | error message => rfl
  | ok chosen =>
      dsimp only
      by_cases inRange : 0 ≤ q.argIndex ∧ q.argIndex < chosen.2
      · rw [dif_pos inRange, if_pos inRange]
        split
        · rename_i message declared
          rw [declared]
          rfl
        · rename_i slots declared
          have below : q.argIndex.toNat < slots.length := by
            rw [CallingConvention.length_slots declared]
            omega
          have tracked : ((chosen.1.slots chosen.2 self.port).map fun slots =>
              slots[q.argIndex.toNat]?.map initialReg) =
              .ok (some (initialReg (slots.get ⟨q.argIndex.toNat, below⟩))) := by
            rw [declared, Except.map, List.getElem?_eq_getElem below]
            rfl
          rw [tracked]
          cases raises <;> rfl
      · rw [dif_neg inRange, if_neg inRange]

end ParamExtractor

/-! ## A session and its database -/

inductive SessionEvent
  | request (r : Request)
  | forward (q : ForwardQuery) (raisesAfter : Option Nat)
  /-- The database changes, and the decompiler with it. -/
  | patch (port : FacadePort) (hexrays : Option (Nat → Nat → Option CallArgs))

/-- An extractor on the database as it is now, and the addresses that changed since they were
last invalidated. -/
structure OpenSession where
  extractor : ParamExtractor
  state : SessionState
  stale : Set Nat := ∅

namespace OpenSession

def start (e : ParamExtractor) : OpenSession := { extractor := e, state := e.new }

/-- What an invalidation leaves of the stale addresses. -/
def staleAfter (stale : Set Nat) : Request → Set Nat
  | .invalidate none => ∅
  | .invalidate (some ea) => stale \ {ea}
  | _ => stale

/-- The instruction or the references at an address are not what they were. -/
def Changed (before after : FacadePort) (ea : Nat) : Prop :=
  after.decodeAt ea ≠ before.decodeAt ea ∨ after.codeRefsTo ea ≠ before.codeRefsTo ea

def next (w : OpenSession) : SessionEvent → OpenSession
  | .request r =>
      { w with state := (w.extractor.respond r w.state).2, stale := staleAfter w.stale r }
  | .forward q raisesAfter =>
      { w with state := (w.extractor.resolveArgumentAtCached q raisesAfter w.state).2 }
  | .patch port hexrays =>
      { w with
        extractor := w.extractor.moved port hexrays
        stale := w.stale ∪ {ea | Changed w.extractor.port port ea} }

def run (w : OpenSession) (events : List SessionEvent) : OpenSession := events.foldl next w

end OpenSession

/-- A patch that changes no function start and no graph. -/
def SessionEvent.KeepsGraphs (port : FacadePort) : SessionEvent → Prop
  | patch port' _ => port'.getFuncStart = port.getFuncStart ∧
      buildCfg port'.toIdaPort = buildCfg port.toIdaPort
  | _ => True

/-! ## What the tables hold -/

/-- The caches are right at every address that is not stale, the memo tables at every address and
function that is not among `starts` and `graphs`. -/
structure SessionState.CoherentOff (e : ParamExtractor) (stale starts graphs : Set Nat)
    (s : SessionState) : Prop where
  insnCache : FaithfulOff stale e.port.decodeAt s.cache.insnCache.entries
  xrefCache : FaithfulOff stale e.port.codeRefsTo s.cache.xrefCache.entries
  funcCache : FaithfulOff starts e.port.getFuncStart s.funcCache
  cfgCache : FaithfulOff graphs (buildCfg e.port.toIdaPort) s.cfgCache
  maxSteps : s.budget.maxSteps = e.maxSteps
  maxBlocks : s.budget.maxBlocks = e.maxBlocks

variable {e : ParamExtractor} {stale starts graphs : Set Nat} {s : SessionState}

theorem SessionState.CoherentOff.valid (coherent : s.CoherentOff e stale ∅ ∅)
    (none : stale = ∅) : s.Valid e where
  insnCache := coherent.insnCache.faithful none
  xrefCache := coherent.xrefCache.faithful none
  funcCache := coherent.funcCache.faithful rfl
  cfgCache := coherent.cfgCache.faithful rfl
  maxSteps := coherent.maxSteps
  maxBlocks := coherent.maxBlocks

theorem SessionState.Valid.coherentOff (valid : s.Valid e) (stale starts graphs : Set Nat) :
    s.CoherentOff e stale starts graphs where
  insnCache := valid.insnCache.off stale
  xrefCache := valid.xrefCache.off stale
  funcCache := valid.funcCache.off starts
  cfgCache := valid.cfgCache.off graphs
  maxSteps := valid.maxSteps
  maxBlocks := valid.maxBlocks

/-! ## Requests -/

namespace SessionState.CoherentOff

/-- No effect of a session makes an address stale. -/
theorem handler (o : SessionOp) (s : SessionState)
    (coherent : s.CoherentOff e stale starts graphs) :
    (e.sessionHandler o s).2.CoherentOff e stale starts graphs := by
  cases o with
  | renew => exact { coherent with maxSteps := rfl, maxBlocks := rfl }
  | codeRefsTo ea =>
      exact { coherent with xrefCache := (LruCache.fetch_off coherent.xrefCache ea).1 }
  | resolveCallArgs callEa numArgs => exact coherent
  | resolver o =>
      cases o with
      | step =>
          exact { coherent with maxSteps := coherent.maxSteps, maxBlocks := coherent.maxBlocks }
      | stepBlock =>
          exact { coherent with maxSteps := coherent.maxSteps, maxBlocks := coherent.maxBlocks }
      | get ea =>
          exact { coherent with insnCache := (LruCache.fetch_off coherent.insnCache ea).1 }
      | funcEaFor ea =>
          exact { coherent with funcCache := (Table.fetch_off coherent.funcCache ea).1 }
      | cfgFor funcEa =>
          exact { coherent with cfgCache := (Table.fetch_off coherent.cfgCache funcEa).1 }
      | mark m => exact coherent

/-- A program leaves the session coherent, wherever an exception ends it. -/
theorem attempt {α : Type} (coherent : s.CoherentOff e stale starts graphs) (limit : Option Nat)
    (p : Prog Session α) :
    (Prog.attempt e.sessionHandler limit p s).2.CoherentOff e stale starts graphs :=
  attempt_keeps handler limit p coherent

theorem extractCallSites (coherent : s.CoherentOff e stale starts graphs) (funcEa : Nat)
    (convention : CallingConvention) (numArgs : Nat) (argTypes : ArgTypes)
    (raisesAfter : Nat → Option Nat) (refs : List Nat) :
    (e.extractCallSites funcEa convention numArgs argTypes raisesAfter refs s).2.CoherentOff e
      stale starts graphs := by
  induction refs generalizing s with
  | nil => exact coherent
  | cons callEa rest ih =>
      exact ih (coherent.attempt (raisesAfter callEa)
        (e.extractOneCall callEa funcEa convention numArgs argTypes))

/-- Invalidation leaves the session coherent. -/
theorem invalidate (coherent : s.CoherentOff e stale starts graphs) (ea : Option Nat) :
    ({ s with cache := s.cache.invalidate ea } : SessionState).CoherentOff e
      (OpenSession.staleAfter stale (.invalidate ea)) starts graphs := by
  cases ea with
  | none =>
      exact { coherent with insnCache := faithfulOff_nil _ _, xrefCache := faithfulOff_nil _ _ }
  | some ea =>
      exact { coherent with
        insnCache := LruCache.pop_off coherent.insnCache ea
        xrefCache := LruCache.pop_off coherent.xrefCache ea }

/-- A request keeps the tables coherent, and an invalidation makes fewer addresses stale. -/
theorem respond (coherent : s.CoherentOff e stale starts graphs) (request : Request) :
    (e.respond request s).2.CoherentOff e (OpenSession.staleAfter stale request) starts graphs := by
  cases request with
  | extractCalls funcEa convention numArgs argTypes raisesAfter =>
      simp only [ParamExtractor.respond, ParamExtractor.extractCalls]
      split
      · exact coherent
      · exact extractCallSites (handler (.codeRefsTo funcEa) s coherent) _ _ _ _ _ _
  | query q => exact coherent.attempt none (q.program e)
  | raisingQuery q calls => exact coherent.attempt (some calls) (q.program e)
  | resolveArgumentAt fetched => exact coherent.attempt none _
  | invalidate ea => exact coherent.invalidate ea

/-- A forward resolution leaves the session coherent, wherever an exception ends it. -/
theorem resolveArgumentAtCached (coherent : s.CoherentOff e stale starts graphs) (q : ForwardQuery)
    (raisesAfter : Option Nat) :
    (e.resolveArgumentAtCached q raisesAfter s).2.CoherentOff e stale starts graphs := by
  unfold ParamExtractor.resolveArgumentAtCached
  split
  · exact coherent
  · exact coherent
  · exact coherent.attempt raisesAfter _

/-- A patch makes stale what it changes. -/
theorem moved (coherent : s.CoherentOff e stale starts graphs) {port : FacadePort}
    (hexrays : Option (Nat → Nat → Option CallArgs))
    (sameStarts : ∀ ea, ea ∉ starts → port.getFuncStart ea = e.port.getFuncStart ea)
    (sameGraphs : ∀ f, f ∉ graphs →
      buildCfg port.toIdaPort f = buildCfg e.port.toIdaPort f) :
    s.CoherentOff (e.moved port hexrays)
      (stale ∪ {ea | OpenSession.Changed e.port port ea}) starts graphs where
  insnCache := coherent.insnCache.changed Set.subset_union_left fun _ differ =>
    Or.inr (Or.inl differ)
  xrefCache := coherent.xrefCache.changed Set.subset_union_left fun _ differ =>
    Or.inr (Or.inr differ)
  funcCache := coherent.funcCache.changed (Set.Subset.refl _) fun ea differ =>
    not_not.mp fun other => differ (sameStarts ea other)
  cfgCache := coherent.cfgCache.changed (Set.Subset.refl _) fun f differ =>
    not_not.mp fun other => differ (sameGraphs f other)
  maxSteps := coherent.maxSteps
  maxBlocks := coherent.maxBlocks

end SessionState.CoherentOff

/-! ## Forward resolutions -/

section Forward

open ForwardSymbolicEngine

variable {q : ForwardQuery}

/-- Fetches of instructions, and nothing else, are those of a list of addresses. -/
theorem exists_fetchAll {port : IdaPort} {funcEa : Nat} {made : List SessionOp}
    (all : ∀ o ∈ made, FetchesIn port funcEa o) :
    ∃ fetched, (∀ ea ∈ fetched, InFunction port funcEa ea) ∧
      ∀ s, made.foldl (fun s o => (e.sessionHandler o s).2) s =
        (Prog.attempt e.sessionHandler none (ParamExtractor.fetchAll fetched) s).2 := by
  induction made with
  | nil => exact ⟨[], List.forall_mem_nil _, fun _ => rfl⟩
  | cons o made ih =>
      rcases List.forall_mem_cons.mp all with ⟨first, rest⟩
      rcases ih rest with ⟨fetched, inside, same⟩
      cases first with
      | @get ea here =>
          exact ⟨ea :: fetched, List.forall_mem_cons.mpr ⟨here, inside⟩, fun s => same _⟩

/-- Answered as it is without a cache, wherever an exception strikes, and nothing but
instructions of the function are fetched. -/
theorem resolveArgumentAtCached_eq (coherent : s.CoherentOff e stale starts graphs)
    (decodes : ∀ ea i, e.port.decodeAt ea = some i → ea < i.nextEa)
    (fresh : ∀ ea ∈ stale, ¬ InFunction e.port.toIdaPort q.funcEa ea)
    (raisesAfter : Option Nat) :
    (e.resolveArgumentAtCached q raisesAfter s).1 = e.plainArgumentAt q raisesAfter.isSome ∧
      ∃ fetched, (∀ ea ∈ fetched, InFunction e.port.toIdaPort q.funcEa ea) ∧
        (e.resolveArgumentAtCached q raisesAfter s).2 =
          (e.respond (.resolveArgumentAt fetched) s).2 := by
  have nothing : ∃ fetched : List Nat, (∀ ea ∈ fetched, InFunction e.port.toIdaPort q.funcEa ea) ∧
      s = (e.respond (.resolveArgumentAt fetched) s).2 :=
    ⟨[], List.forall_mem_nil _, rfl⟩
  have answers : ∀ o s, FetchesIn e.port.toIdaPort q.funcEa o →
      s.CoherentOff e stale starts graphs →
      (e.sessionHandler o s).1 = portAnswer e o := by
    intro o s fetches coherent
    cases fetches with
    | @get ea inside =>
        exact (LruCache.fetch_off coherent.insnCache ea).2 fun old => fresh ea old inside
  have keeps : ∀ o s, FetchesIn e.port.toIdaPort q.funcEa o → s.CoherentOff e stale starts graphs →
      (e.sessionHandler o s).2.CoherentOff e stale starts graphs :=
    fun o s _ coherent => coherent.handler o s
  have computes := @resolveAtCached_computes e.forwardEngine e q.bound q.funcEa rfl decodes
    q.argIndex q.targetEa
  rw [ParamExtractor.plainArgumentAt_eq]
  unfold ParamExtractor.resolveArgumentAtCached
  cases e.trackedReg q with
  | error message => exact ⟨rfl, nothing⟩
  | ok tracked =>
      cases tracked with
      | none => exact ⟨rfl, nothing⟩
      | some reg =>
          refine ⟨?_, ?_⟩
          · cases raisesAfter with
            | some calls => rfl
            | none => exact congrArg Except.ok ((computes reg).attempt answers keeps coherent).1
          · rcases (computes reg).calls answers keeps raisesAfter coherent with
              ⟨made, all, ended⟩
            rcases exists_fetchAll all with ⟨fetched, inside, same⟩
            exact ⟨fetched, inside, ended.trans (same s)⟩

end Forward

/-! ## Runs -/

/-- The function starts and graphs of a port are those of another, but at the given addresses and
functions. -/
structure FacadePort.KeepsOff (first : FacadePort) (starts graphs : Set Nat) (port : FacadePort) :
    Prop where
  start : ∀ ea, ea ∉ starts → port.getFuncStart ea = first.getFuncStart ea
  graph : ∀ f, f ∉ graphs → buildCfg port.toIdaPort f = buildCfg first.toIdaPort f

/-- A patch that changes function starts and graphs at most there. -/
def SessionEvent.KeepsOff (first : FacadePort) (starts graphs : Set Nat) : SessionEvent → Prop
  | patch port _ => first.KeepsOff starts graphs port
  | _ => True

theorem SessionEvent.KeepsGraphs.keepsOff {first : FacadePort} {event : SessionEvent}
    (kept : event.KeepsGraphs first) : event.KeepsOff first ∅ ∅ := by
  cases event with
  | request r => trivial
  | forward q raisesAfter => trivial
  | patch port hexrays => exact ⟨fun ea _ => congrFun kept.1 ea, fun f _ => congrFun kept.2 f⟩

/-- What every event of a run keeps. -/
structure OpenSession.Coherent (first : FacadePort) (starts graphs : Set Nat) (w : OpenSession) :
    Prop where
  tables : w.state.CoherentOff w.extractor w.stale starts graphs
  kept : first.KeepsOff starts graphs w.extractor.port

/-- Every event leaves the session coherent. -/
theorem OpenSession.Coherent.next {first : FacadePort} {w : OpenSession}
    (coherent : w.Coherent first starts graphs) (event : SessionEvent)
    (kept : event.KeepsOff first starts graphs) :
    (w.next event).Coherent first starts graphs := by
  cases event with
  | request r => exact { coherent with tables := coherent.tables.respond r }
  | forward q raisesAfter =>
      exact { coherent with tables := coherent.tables.resolveArgumentAtCached q raisesAfter }
  | patch port hexrays =>
      refine ⟨coherent.tables.moved hexrays (fun ea other => ?_) fun f other => ?_, kept⟩
      · rw [kept.start ea other, coherent.kept.start ea other]
      · rw [kept.graph f other, coherent.kept.graph f other]

/-- Any run leaves the session coherent. -/
theorem OpenSession.Coherent.run {first : FacadePort} {w : OpenSession}
    (coherent : w.Coherent first starts graphs) (events : List SessionEvent)
    (kept : ∀ event ∈ events, event.KeepsOff first starts graphs) :
    (w.run events).Coherent first starts graphs := by
  induction events generalizing w with
  | nil => exact coherent
  | cons event rest ih =>
      exact ih (coherent.next event (kept event List.mem_cons_self)) fun later member =>
        kept later (List.mem_cons_of_mem event member)

theorem OpenSession.coherent_start (e : ParamExtractor) (starts graphs : Set Nat) :
    (start e).Coherent e.port starts graphs :=
  ⟨e.new_valid.coherentOff ∅ starts graphs, fun _ _ => rfl, fun _ _ => rfl⟩

/-- With nothing known of function starts and graphs, no patch is restricted. -/
theorem SessionEvent.keepsOff_univ (first : FacadePort) (event : SessionEvent) :
    event.KeepsOff first Set.univ Set.univ := by
  cases event with
  | request r => trivial
  | forward q raisesAfter => trivial
  | patch port hexrays =>
      exact ⟨fun ea other => (other (Set.mem_univ ea)).elim,
        fun f other => (other (Set.mem_univ f)).elim⟩

/-- After any run in which the database was patched at any time, `resolve_argument_at` answers as
it does without a cache on the database as it is now, if no address of the function is stale;
wherever an exception strikes it, it has fetched instructions of the function and done nothing
else. When no address is stale and the patches changed no function start and no graph, later
requests are answered as by a new extractor on the database as it is now. -/
theorem session_coherent (e : ParamExtractor) (events : List SessionEvent) {w : OpenSession}
    (ran : (OpenSession.start e).run events = w) :
    ((∀ ea i, w.extractor.port.decodeAt ea = some i → ea < i.nextEa) → ∀ q : ForwardQuery,
      (∀ ea ∈ w.stale,
        ¬ ForwardSymbolicEngine.InFunction w.extractor.port.toIdaPort q.funcEa ea) →
      ∀ raisesAfter,
        (w.extractor.resolveArgumentAtCached q raisesAfter w.state).1 =
          w.extractor.plainArgumentAt q raisesAfter.isSome ∧
        ∃ fetched,
          (∀ ea ∈ fetched,
            ForwardSymbolicEngine.InFunction w.extractor.port.toIdaPort q.funcEa ea) ∧
          (w.extractor.resolveArgumentAtCached q raisesAfter w.state).2 =
            (w.extractor.respond (.resolveArgumentAt fetched) w.state).2) ∧
    (w.stale = ∅ → (∀ event ∈ events, event.KeepsGraphs e.port) → ∀ later,
      w.extractor.AllRequestsBudgeted later w.state →
        w.extractor.responses later w.state = later.map w.extractor.freshResponse) := by
  subst ran
  refine ⟨fun decodes q fresh raisesAfter => ?_, fun none kept later budgeted => ?_⟩
  · have coherent := (OpenSession.coherent_start e Set.univ Set.univ).run events
      fun event _ => event.keepsOff_univ e.port
    exact resolveArgumentAtCached_eq coherent.tables decodes fresh raisesAfter
  · have coherent := (OpenSession.coherent_start e ∅ ∅).run events
      fun event member => (kept event member).keepsOff
    exact responses_fresh later (coherent.tables.valid none) budgeted

/-! ### An instruction that is patched -/

namespace Patched

open FakeIdaPort

def setEcx (value : Int) : Instruction :=
  FakeIdaPort.insn 0x401000 "mov" 5 [FakeIdaPort.reg 0 1, FakeIdaPort.imm 1 value]

def port : FacadePort := FakeIdaPort.toFacadePort
  { pointerSize := 4
    instructions := [setEcx 5, Reanalysed.leave]
    funcBounds := [(0x401000, 0x401006)]
    blocks := [(0x401000, [⟨0x401000, 0x401006, [], []⟩])] }

/-- The other constant at the first address. -/
def patched : FacadePort :=
  { port with decodeAt := fun ea => if ea = 0x401000 then some (setEcx 7) else port.decodeAt ea }

def extractor : ParamExtractor where
  port
  registry := defaultRegistry

/-- What does `ecx` hold at the second instruction? -/
def question : ForwardQuery where
  bound := 16
  funcEa := 0x401000
  argIndex := 0
  targetEa := 0x401005
  convention := some (.template fastcall)
  numArgs := some 1

def events : List SessionEvent :=
  [.forward question none, .patch patched none, .request (.invalidate (some 0x401000))]

end Patched

theorem session_coherent_patched :
    (((OpenSession.start Patched.extractor).run Patched.events).extractor.resolveArgumentAtCached
      Patched.question none ((OpenSession.start Patched.extractor).run Patched.events).state).1 =
        .ok (some (.concrete (.int 7) .int)) := by
  have decodes : ∀ ea i, Patched.patched.decodeAt ea = some i → ea < i.nextEa := by
    intro ea i decoded
    by_cases first : ea = 0x401000
    · have here : some (Patched.setEcx 7) = some i := (if_pos first).symm.trans decoded
      obtain rfl := Option.some.inj here
      subst first
      decide
    · have old : Patched.port.decodeAt ea = some i := (if_neg first).symm.trans decoded
      have member := List.mem_reverse.mp (List.mem_of_find?_eq_some old)
      have at_ea : i.ea = ea := by simpa using List.find?_some old
      subst at_ea
      rcases List.mem_pair.mp member with rfl | rfl <;> decide
  refine ((session_coherent Patched.extractor Patched.events rfl).1 decodes Patched.question
    (fun ea stale _ => ?_) none).1.trans (by decide +kernel)
  rcases stale with ⟨old | changed, other⟩
  · exact old
  · rcases changed with insn | refs
    · exact insn (if_neg other)
    · exact refs rfl

end IDAnalysister
