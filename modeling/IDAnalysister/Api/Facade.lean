import IDAnalysister.Session.Resolver

/-!
# The facade

`ParamExtractor.extract_calls` (`api/facade.py`) with the results it builds
(`api/results.py`) and the post-processor chains it runs (`postproc/base.py`). One call
site is a session program; an exception that escapes from it is caught by
`_extract_one_call_safe`, and whatever the site had done to the session by then stays.
Where an exception strikes is not fixed: `raisesAfter` says, for each site, after how many
of the site's effects one escapes, if any does.
-/

namespace IDAnalysister

open Effect

/-! ## Post-processing -/

structure PostProcessor where
  name : String
  /-- `process`; `none` when it raises. -/
  process : ValueLattice → FacadePort → Option ValueLattice

/-- `PostProcessorChain.run`. -/
def runPostProcessors (port : FacadePort) : List PostProcessor → ValueLattice → ValueLattice
  | [], current => current
  | step :: rest, current =>
      if current.isKnown then
        match step.process current port with
        | some processed => runPostProcessors port rest processed
        | none => .unknown .internalError ("post-processor " ++ step.name ++ " raised")
      else current

structure ArgTypeSpec where
  postprocessors : List PostProcessor := []
  label : Option String := none

/-- The dictionary `arg_types`. -/
abbrev ArgTypes := List (Nat × ArgTypeSpec)

/-! ## Results -/

inductive ResultSource
  | raw
  | hexraysFallback
  deriving DecidableEq

structure ArgumentResult where
  index : Nat
  rawValue : ValueLattice
  processedValue : ValueLattice
  label : Option String := none
  source : ResultSource := .raw
  deriving DecidableEq

structure CallSiteResult where
  callEa : Nat
  funcEa : Nat
  arguments : List ArgumentResult
  deriving DecidableEq

structure ExtractionReport where
  funcEa : Nat
  callSites : List CallSiteResult
  deriving DecidableEq

namespace ParamExtractor

variable (self : ParamExtractor)

/-! ## One call site -/

/-- The push that a position counted from the end of the sequence names. -/
def pushAt (pushes : List Nat) (position : Int) : Option Nat :=
  let idx : Int := pushes.length - 1 - position
  if idx < 0 ∨ pushes.length ≤ idx then none else pushes[idx.toNat]?

/-- `_resolve_slot`. -/
def resolveSlot (callEa : Nat) (slot : ArgSlot) (pushes : List Nat) : Prog Session ValueLattice :=
  if kind : slot.kind = .stackPush then
    match pushAt pushes (slot.stackPushPosition.get (slot.push_isSome kind)) with
    | none => pure (.unknown .noDefinitionFound "push sequence too short")
    | some ea => Session.fresh (self.resolver.program self.resolver.fuel (.atInstruction ea 0))
  else if slot.kind = .register then
    match slot.reg with
    | none => pure (.unknown .unsupportedOperandShape "unresolved register name")
    | some reg => Session.fresh (self.resolver.program self.resolver.fuel (.register reg callEa))
  else
    match slot.stackOffset with
    | none => pure (.unknown .unsupportedOperandShape "unresolved stack offset")
    | some offset =>
        Session.fresh (self.resolver.program self.resolver.fuel
          (.memory self.port.stackPointerReg offset callEa self.port.pointerSize))

/-- The decompiler's answer for a call site, asked for once. -/
def hexraysArgs (callEa numArgs : Nat) : Option (Option CallArgs) → Prog Session (Option CallArgs)
  | some answer => pure answer
  | none => Prog.perform (S := Session) (SessionOp.resolveCallArgs callEa numArgs)

/-- What stands for a raw value: the decompiler's when it has a known one and the raw walk
has not. `tried` is its answer for this call site, once it was asked. -/
def fallBack (callEa numArgs : Nat) (slot : ArgSlot) (raw : ValueLattice)
    (tried : Option (Option CallArgs)) :
    Prog Session (ValueLattice × ResultSource × Option (Option CallArgs)) :=
  if raw.isKnown ∨ self.hexrays.isNone then pure (raw, .raw, tried)
  else do
    let answer ← hexraysArgs callEa numArgs tried
    match (answer.bind fun args => args.lookup slot.index).filter (·.isKnown) with
    | some value => pure (value, .hexraysFallback, some answer)
    | none => pure (raw, .raw, some answer)

def argumentResult (argTypes : ArgTypes) (slot : ArgSlot) (value : ValueLattice)
    (source : ResultSource) : ArgumentResult :=
  let spec := argTypes.lookup slot.index
  { index := slot.index
    rawValue := value
    processedValue := match spec with
      | some spec => runPostProcessors self.port spec.postprocessors value
      | none => value
    label := spec.bind (·.label)
    source }

/-- The loop over the slots in `_extract_one_call`. -/
def extractArguments (callEa numArgs : Nat) (pushes : List Nat) (argTypes : ArgTypes) :
    Option (Option CallArgs) → List ArgSlot → Prog Session (List ArgumentResult)
  | _, [] => pure []
  | tried, slot :: rest => do
      let raw ← self.resolveSlot callEa slot pushes
      let (value, source, tried) ← self.fallBack callEa numArgs slot raw tried
      let later ← extractArguments callEa numArgs pushes argTypes tried rest
      pure (self.argumentResult argTypes slot value source :: later)

/-- `collect_push_sequence`, when some slot needs it. -/
def pushesFor (callEa : Nat) (slots : List ArgSlot) : Prog Session (List Nat) :=
  if slots.any (·.kind = .stackPush) then Session.lift (self.resolver.collectPushSequence callEa)
  else pure []

/-- `_extract_one_call`; an error is a `ConventionError` with its message. -/
def extractOneCall (callEa funcEa : Nat) (convention : CallingConvention) (numArgs : Nat)
    (argTypes : ArgTypes) : Prog Session (Except String CallSiteResult) :=
  match convention.slots numArgs self.port with
  | .error message => pure (.error message)
  | .ok slots => do
      let pushes ← self.pushesFor callEa slots
      let arguments ← self.extractArguments callEa numArgs pushes argTypes none slots
      pure (.ok { callEa, funcEa, arguments })

/-- The result `_extract_one_call_safe` falls back on. -/
def failedSite (callEa funcEa numArgs : Nat) : CallSiteResult where
  callEa
  funcEa
  arguments := (List.range numArgs).map fun index =>
    { index, rawValue := .unknown' .internalError, processedValue := .unknown' .internalError }

/-- The `except` clause of `_extract_one_call_safe`: what the site raised, or the exception
that struck it from outside, is replaced by a result. -/
def caught (callEa funcEa numArgs : Nat) :
    Option Nat → Option (Except String CallSiteResult) → CallSiteResult
  | none, some (.ok site) => site
  | _, _ => failedSite callEa funcEa numArgs

/-- `_extract_one_call_safe`. -/
def extractOneCallSafe (callEa funcEa : Nat) (convention : CallingConvention) (numArgs : Nat)
    (argTypes : ArgTypes) (raises : Option Nat) (s : SessionState) :
    CallSiteResult × SessionState :=
  let ran := Prog.attempt self.sessionHandler raises
    (self.extractOneCall callEa funcEa convention numArgs argTypes) s
  (caught callEa funcEa numArgs raises ran.1, ran.2)

/-! ## All call sites -/

/-- The loop over the call sites in `extract_calls`. -/
def extractCallSites (funcEa : Nat) (convention : CallingConvention) (numArgs : Nat)
    (argTypes : ArgTypes) (raisesAfter : Nat → Option Nat) :
    List Nat → SessionState → List CallSiteResult × SessionState
  | [], s => ([], s)
  | callEa :: rest, s =>
      let (site, s) := self.extractOneCallSafe callEa funcEa convention numArgs argTypes
        (raisesAfter callEa) s
      let (sites, s) := extractCallSites funcEa convention numArgs argTypes raisesAfter rest s
      (site :: sites, s)

/-- `_resolve_convention`; an error is a `ConventionError` with its message. -/
def resolveConvention (funcEa : Nat) (convention : Option CallingConvention)
    (numArgs : Option Nat) : Except String (CallingConvention × Nat) :=
  let inferred := if convention.isNone then inferPrototype self.port funcEa else none
  let chosen := convention.getD (inferred.elim (.template cdecl) .prototype)
  match numArgs, chosen with
  | some n, _ => .ok (chosen, n)
  | none, .prototype p => .ok (chosen, p.argCount)
  | none, _ => .error ("num_args must be specified for template-based convention " ++
      reprString chosen.name ++ " (no recognized prototype for function " ++ hex funcEa ++ ")")

/-- `extract_calls`. -/
def extractCalls (funcEa : Nat) (convention : Option CallingConvention) (numArgs : Option Nat)
    (argTypes : ArgTypes) (raisesAfter : Nat → Option Nat) (s : SessionState) :
    Except String ExtractionReport × SessionState :=
  match self.resolveConvention funcEa convention numArgs with
  | .error message => (.error message, s)
  | .ok (convention, numArgs) =>
      let (refs, s) := self.sessionHandler (.codeRefsTo funcEa) s
      let (callSites, s) := self.extractCallSites funcEa convention numArgs argTypes raisesAfter
        (refs.insertionSort (· ≤ ·)) s
      (.ok { funcEa, callSites }, s)

/-! ## A session -/

end ParamExtractor

/-- What a user does with one extractor. An exception may end a resolver query early, and
all that a forward resolution shares with later calls is the instructions it fetches. -/
inductive Request
  | extractCalls (funcEa : Nat) (convention : Option CallingConvention) (numArgs : Option Nat)
    (argTypes : ArgTypes) (raisesAfter : Nat → Option Nat)
  | query (q : ResolverCall)
  | raisingQuery (q : ResolverCall) (calls : Nat)
  | resolveArgumentAt (fetched : List Nat)
  | invalidate (ea : Option Nat)

inductive Response
  | report (r : Except String ExtractionReport)
  | reply (r : Option Reply)
  | silent
  deriving DecidableEq

namespace ParamExtractor

variable (self : ParamExtractor)

/-- Fetch instructions through the cache. -/
def fetchAll : List Nat → Prog Session Unit
  | [] => pure ()
  | ea :: rest => do
      let _ ← Session.resolve (.get ea)
      fetchAll rest

def respond : Request → SessionState → Response × SessionState
  | .extractCalls funcEa convention numArgs argTypes raisesAfter, s =>
      let (report, s) := self.extractCalls funcEa convention numArgs argTypes raisesAfter s
      (.report report, s)
  | .query q, s =>
      let (reply, s) := self.serve q s
      (.reply reply, s)
  | .raisingQuery q calls, s =>
      (.silent, (Prog.attempt self.sessionHandler (some calls) (q.program self) s).2)
  | .resolveArgumentAt fetched, s =>
      (.silent, (Prog.attempt self.sessionHandler none (fetchAll fetched) s).2)
  | .invalidate ea, s => (.silent, { s with cache := s.cache.invalidate ea })

/-- The state after a sequence of requests. -/
def after : List Request → SessionState → SessionState
  | [], s => s
  | request :: rest, s => after rest (self.respond request s).2

/-- The responses to a sequence of requests. -/
def responses : List Request → SessionState → List Response
  | [], _ => []
  | request :: rest, s =>
      (self.respond request s).1 :: responses rest (self.respond request s).2

/-- The response of a new extractor. -/
def freshResponse (request : Request) : Response := (self.respond request self.new).1

end ParamExtractor

end IDAnalysister
