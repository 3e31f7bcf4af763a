import IDAnalysister.Api.Independence

/-!
# A database that changes during a session

`cache.invalidate()` empties the instruction and cross-reference caches, but not the
resolver's memo tables of function starts and graphs. After the database has changed and
the cache was flushed, later requests answer as on a new extractor whenever every start
and graph remembered from before is what the new database says, and every `dereference`
still has a step in the budget it finds (`responses_fresh_after_flush`).
-/

namespace IDAnalysister

open Effect Prog Memo

/-- The session after its database was replaced. -/
def ParamExtractor.moved (e : ParamExtractor) (port : FacadePort)
    (hexrays : Option (Nat → Nat → Option CallArgs)) : ParamExtractor :=
  { e with port, hexrays }

/-- `cache.invalidate()`. -/
def SessionState.flushed (s : SessionState) : SessionState :=
  { s with cache := s.cache.invalidate none }

/-- The function starts and graphs remembered are those of the port. -/
structure SessionState.Remembers (s : SessionState) (port : FacadePort) : Prop where
  starts : ∀ entry ∈ s.funcCache, port.getFuncStart entry.1 = entry.2
  graphs : ∀ entry ∈ s.cfgCache, buildCfg port.toIdaPort entry.1 = entry.2

/-- A bare `dereference` finds a step in the budget. -/
def Request.Budgeted (s : SessionState) : Request → Prop
  | query q => q.Budgeted s
  | _ => True

/-- Every request of a sequence is budgeted when it is made. -/
def ParamExtractor.AllRequestsBudgeted (e : ParamExtractor) : List Request → SessionState → Prop
  | [], _ => True
  | request :: rest, s =>
      request.Budgeted s ∧ AllRequestsBudgeted e rest (e.respond request s).2

variable {e : ParamExtractor} {s : SessionState}

theorem flushed_valid {port : FacadePort} {hexrays : Option (Nat → Nat → Option CallArgs)}
    (valid : s.Valid e) (remembers : s.Remembers port) :
    s.flushed.Valid (e.moved port hexrays) where
  insnCache := faithful_nil _
  xrefCache := faithful_nil _
  funcCache entry member := (remembers.starts entry member).symm
  cfgCache entry member := (remembers.graphs entry member).symm
  maxSteps := valid.maxSteps
  maxBlocks := valid.maxBlocks

/-! ## Responses from two valid states -/

theorem extractOneCallSafe_congr (callEa funcEa : Nat) (convention : CallingConvention)
    (numArgs : Nat) (argTypes : ArgTypes) (raises : Option Nat) {s' : SessionState}
    (valid : s.Valid e) (valid' : s'.Valid e) :
    (e.extractOneCallSafe callEa funcEa convention numArgs argTypes raises s).1 =
      (e.extractOneCallSafe callEa funcEa convention numArgs argTypes raises s').1 := by
  cases raises with
  | some calls => rfl
  | none =>
      have same := Steady.extractOneCall (e := e) callEa funcEa convention numArgs argTypes s s'
        valid valid'
      simp only [ParamExtractor.extractOneCallSafe, same]

theorem extractCallSites_congr (funcEa : Nat) (convention : CallingConvention) (numArgs : Nat)
    (argTypes : ArgTypes) (raisesAfter : Nat → Option Nat) (refs : List Nat) {s' : SessionState}
    (valid : s.Valid e) (valid' : s'.Valid e) :
    (e.extractCallSites funcEa convention numArgs argTypes raisesAfter refs s).1 =
      (e.extractCallSites funcEa convention numArgs argTypes raisesAfter refs s').1 := by
  induction refs generalizing s s' with
  | nil => rfl
  | cons callEa rest ih =>
      have head := extractOneCallSafe_congr callEa funcEa convention numArgs argTypes
        (raisesAfter callEa) valid valid'
      have tail := ih (extractOneCallSafe_valid callEa funcEa convention numArgs argTypes
        (raisesAfter callEa) valid) (extractOneCallSafe_valid callEa funcEa convention numArgs
        argTypes (raisesAfter callEa) valid')
      simp only [ParamExtractor.extractCallSites]
      rw [head, tail]

/-- A budgeted request is answered as on a new extractor. -/
theorem respond_fresh (request : Request) (valid : s.Valid e) (budgeted : request.Budgeted s) :
    (e.respond request s).1 = e.freshResponse request := by
  cases request with
  | extractCalls funcEa convention numArgs argTypes raisesAfter =>
      simp only [ParamExtractor.freshResponse, ParamExtractor.respond, ParamExtractor.extractCalls]
      cases e.resolveConvention funcEa convention numArgs with
      | error message => rfl
      | ok chosen =>
          have refs := codeRefsTo_valid valid funcEa
          have refs' := codeRefsTo_valid e.new_valid funcEa
          have same := extractCallSites_congr funcEa chosen.1 chosen.2 argTypes raisesAfter
            ((e.port.codeRefsTo funcEa).insertionSort (· ≤ ·)) refs.2 refs'.2
          simp only [refs.1, refs'.1, same]
  | query q =>
      have same := (serve_eq_freshReply_iff q valid).mpr budgeted
      exact congrArg Response.reply same
  | raisingQuery q calls => rfl
  | resolveArgumentAt fetched => rfl
  | invalidate ea => rfl

theorem responses_fresh (requests : List Request) (valid : s.Valid e)
    (budgeted : e.AllRequestsBudgeted requests s) :
    e.responses requests s = requests.map e.freshResponse := by
  induction requests generalizing s with
  | nil => rfl
  | cons request rest ih =>
      rcases budgeted with ⟨head, later⟩
      rw [ParamExtractor.responses, List.map_cons, respond_fresh request valid head,
        ih (respond_valid request valid) later]

/-- After any requests on one database, a change to another and a flush, everything later
is answered as by a new extractor on the other database, provided that the starts and
graphs still remembered are those of that database and no `dereference` finds the budget
spent. -/
theorem responses_fresh_after_flush (e : ParamExtractor) (port : FacadePort)
    (hexrays : Option (Nat → Nat → Option CallArgs)) (history later : List Request)
    (remembers : (e.after history e.new).Remembers port)
    (budgeted : (e.moved port hexrays).AllRequestsBudgeted later
      (e.after history e.new).flushed) :
    (e.moved port hexrays).responses later (e.after history e.new).flushed =
      later.map (e.moved port hexrays).freshResponse :=
  responses_fresh later (flushed_valid (after_valid history e.new_valid) remembers) budgeted

/-! ## A function that is split, and one that is patched -/

namespace Reanalysed

def setEax (value : Int) : Instruction :=
  FakeIdaPort.insn 0x401000 "mov" 5 [FakeIdaPort.reg 0 0, FakeIdaPort.imm 1 value]

def leave : Instruction := FakeIdaPort.insn 0x401005 "ret" 1 []

/-- One function of one block. -/
def whole (value : Int) : FacadePort := FakeIdaPort.toFacadePort
  { pointerSize := 4
    instructions := [setEax value, leave]
    funcBounds := [(0x401000, 0x401006)]
    blocks := [(0x401000, [⟨0x401000, 0x401006, [], []⟩])] }

/-- The second instruction is a function of its own. -/
def split : FacadePort := FakeIdaPort.toFacadePort
  { pointerSize := 4
    instructions := [setEax 5, leave]
    funcBounds := [(0x401000, 0x401005), (0x401005, 0x401006)]
    blocks := [(0x401000, [⟨0x401000, 0x401005, [], []⟩]),
      (0x401005, [⟨0x401005, 0x401006, [], []⟩])] }

def extractor : ParamExtractor where
  port := whole 5
  registry := defaultRegistry

/-- What does `eax` hold at the second instruction? -/
def question : List Request := [.query (.resolve (.register 0 0x401005))]

theorem flush_keeps_old_function :
    (extractor.moved split none).responses question
        (extractor.after question extractor.new).flushed ≠
      question.map (extractor.moved split none).freshResponse := by
  decide

theorem responses_fresh_after_flush_patched :
    (extractor.moved (whole 7) none).responses question
        (extractor.after question extractor.new).flushed =
      [.reply (some (.value (.concrete (.int 7) .int)))] := by
  have remembers : (extractor.after question extractor.new).Remembers (whole 7) := by
    constructor <;> decide
  rw [responses_fresh_after_flush extractor (whole 7) none question question remembers
    ⟨trivial, trivial⟩]
  rfl

end Reanalysed

end IDAnalysister
