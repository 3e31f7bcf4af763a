import IDAnalysister.Adapters.HexraysBackend
import IDAnalysister.Api.Fallback
import IDAnalysister.Api.ReportSoundness

/-!
# Reports with the decompiler

What every argument of a report was made from, when the decompiler is the backend over the
microcode of IDA: the value of its slot alone, or the operand of the first call instruction at
the site. The session's caches, its budget, the shared push sequence and the remembered answer of
the decompiler make no difference.
-/

namespace IDAnalysister

open Effect Prog HexraysBackend

namespace ParamExtractor

variable (e : ParamExtractor)

/-- What the decompiler says of a call site. -/
def decompiled (callEa numArgs : Nat) : Option CallArgs :=
  e.hexrays.bind fun backend => backend callEa numArgs

/-- The argument that is reported for a slot with this raw value. -/
def reportedArgument (argTypes : ArgTypes) (callEa numArgs : Nat) (slot : ArgSlot)
    (raw : ValueLattice) : ArgumentResult :=
  e.argumentResult argTypes slot (filled (e.decompiled callEa numArgs) slot raw).1
    (filled (e.decompiled callEa numArgs) slot raw).2

/-- The argument is reported for the slot and its value alone. -/
def MadeFrom (argTypes : ArgTypes) (callEa numArgs : Nat) (slot : ArgSlot)
    (arg : ArgumentResult) : Prop :=
  ∃ raw, e.slotValue callEa slot = some raw ∧
    e.reportedArgument argTypes callEa numArgs slot raw = arg

/-- Nothing was asked yet, or the answer for the site is at hand. -/
def Tried (callEa numArgs : Nat) (tried : Option (Option CallArgs)) : Prop :=
  tried = none ∨ tried = some (e.decompiled callEa numArgs)

variable {e} {callEa numArgs : Nat} {tried : Option (Option CallArgs)} {argTypes : ArgTypes}

/-- An unknown value is filled in from a known entry. -/
theorem filled_unknown {answer : Option CallArgs} {slot : ArgSlot} {raw : ValueLattice}
    (unknown : raw.isKnown = false) : filled answer slot raw =
      (((answer.bind fun args => args.lookup slot.index).filter (·.isKnown)).map
        fun value => (value, ResultSource.hexraysFallback)).getD (raw, .raw) := by
  rw [filled, unknown, if_neg Bool.false_ne_true]
  cases (answer.bind fun args => args.lookup slot.index).filter (·.isKnown) <;> rfl

theorem serves_hexraysArgs_tried (known : e.Tried callEa numArgs tried) :
    Serves e (hexraysArgs callEa numArgs tried) (e.decompiled callEa numArgs) := by
  rcases known with rfl | rfl
  · exact fun s valid => ⟨s, rfl, valid⟩
  · exact .pure _

/-- What stands for a raw value is filled in from the decompiler's answer for the site. -/
theorem serves_fallBack_filled (slot : ArgSlot) (raw : ValueLattice)
    (known : e.Tried callEa numArgs tried) :
    ∃ tried', e.Tried callEa numArgs tried' ∧ Serves e (e.fallBack callEa numArgs slot raw tried)
      ((filled (e.decompiled callEa numArgs) slot raw).1,
        (filled (e.decompiled callEa numArgs) slot raw).2, tried') := by
  unfold fallBack
  split
  · rename_i settled
    refine ⟨tried, known, ?_⟩
    have same : filled (e.decompiled callEa numArgs) slot raw = (raw, .raw) := by
      rcases settled with found | absent
      · exact filled_known found
      · have silent : e.decompiled callEa numArgs = none := by
          rw [decompiled, Option.isNone_iff_eq_none.mp absent]
          rfl
        rw [silent, filled_none]
    rw [same]
    exact .pure _
  · rename_i hole
    have unknown : raw.isKnown = false := by
      simpa using (not_or.mp hole).1
    refine ⟨some (e.decompiled callEa numArgs), Or.inr rfl,
      (serves_hexraysArgs_tried known).bind ?_⟩
    rw [filled_unknown unknown]
    cases ((e.decompiled callEa numArgs).bind fun args => args.lookup slot.index).filter
        (·.isKnown) with
    | none => exact .pure _
    | some value => exact .pure _

theorem serves_arguments_made (pushes : List Nat) (slots : List ArgSlot)
    (known : e.Tried callEa numArgs tried)
    (each : ∀ slot ∈ slots, ∃ v, e.slotValue callEa slot = some v ∧
      Serves e (e.resolveSlot callEa slot pushes) v) :
    ∃ args, Serves e (e.extractArguments callEa numArgs pushes argTypes tried slots) args ∧
      List.Forall₂ (e.MadeFrom argTypes callEa numArgs) slots args := by
  induction slots generalizing tried with
  | nil => exact ⟨[], .pure [], .nil⟩
  | cons slot rest ih =>
      rcases each slot List.mem_cons_self with ⟨raw, alone, resolved⟩
      rcases serves_fallBack_filled slot raw known with ⟨tried', known', fell⟩
      rcases ih known' fun slot member => each slot (List.mem_cons_of_mem _ member) with
        ⟨later, served, made⟩
      exact ⟨_, resolved.bind (fell.bind (served.bind (.pure _))), .cons ⟨raw, alone, rfl⟩ made⟩

/-- What a call site reports. -/
structure SiteMade (e : ParamExtractor) (argTypes : ArgTypes) (funcEa numArgs : Nat)
    (slots : List ArgSlot) (callEa : Nat) (raises : Option Nat) (site : CallSiteResult) : Prop where
  raised : raises ≠ none → failedSite callEa funcEa numArgs = site
  address : site.callEa = callEa
  target : site.funcEa = funcEa
  made : raises = none →
    List.Forall₂ (e.MadeFrom argTypes callEa numArgs) slots site.arguments

variable {s : SessionState} {funcEa : Nat} {convention : CallingConvention} {slots : List ArgSlot}

theorem extractOneCallSafe_made (callEa funcEa : Nat) (argTypes : ArgTypes) (raises : Option Nat)
    (declared : convention.slots numArgs e.port = .ok slots) (valid : s.Valid e) :
    e.SiteMade argTypes funcEa numArgs slots callEa raises
      (e.extractOneCallSafe callEa funcEa convention numArgs argTypes raises s).1 := by
  cases raises with
  | some calls => exact ⟨fun _ => rfl, rfl, rfl, fun never => by cases never⟩
  | none =>
      rcases resolveSlot_served (e := e) callEa slots with ⟨pushes, collected, each⟩
      rcases serves_arguments_made pushes slots (Or.inl rfl) each with ⟨args, served, made⟩
      have whole : Serves e (e.extractOneCall callEa funcEa convention numArgs argTypes)
          (.ok { callEa, funcEa, arguments := args }) := by
        unfold extractOneCall
        rw [declared]
        exact collected.bind (served.bind (.pure _))
      rcases whole s valid with ⟨s', ran, -⟩
      have site : (e.extractOneCallSafe callEa funcEa convention numArgs argTypes none s).1 =
          { callEa, funcEa, arguments := args } := by
        simp only [extractOneCallSafe, ran, caught]
      rw [site]
      exact ⟨fun raised => absurd rfl raised, rfl, rfl, fun _ => made⟩

theorem extractCallSites_made (funcEa : Nat) (argTypes : ArgTypes) (raisesAfter : Nat → Option Nat)
    (declared : convention.slots numArgs e.port = .ok slots) (refs : List Nat)
    (valid : s.Valid e) :
    List.Forall₂ (fun callEa site =>
        e.SiteMade argTypes funcEa numArgs slots callEa (raisesAfter callEa) site) refs
      (e.extractCallSites funcEa convention numArgs argTypes raisesAfter refs s).1 := by
  induction refs generalizing s with
  | nil => exact .nil
  | cons callEa rest ih =>
      exact .cons (extractOneCallSafe_made callEa funcEa argTypes _ declared valid)
        (ih (extractOneCallSafe_valid callEa funcEa convention numArgs argTypes _ valid))

/-- What the call sites of a report were made from, after any requests on the same extractor. -/
theorem extractCalls_made (e : ParamExtractor) (history : List Request)
    {convention : Option CallingConvention} {numArgs : Option Nat} {c : CallingConvention}
    {n : Nat} (resolved : e.resolveConvention funcEa convention numArgs = .ok (c, n))
    (declared : c.slots n e.port = .ok slots) (argTypes : ArgTypes)
    (raisesAfter : Nat → Option Nat) :
    ∃ report, (e.extractCalls funcEa convention numArgs argTypes raisesAfter
        (e.after history e.new)).1 = .ok report ∧
      List.Forall₂ (fun callEa site =>
          e.SiteMade argTypes funcEa n slots callEa (raisesAfter callEa) site)
        ((e.port.codeRefsTo funcEa).insertionSort (· ≤ ·)) report.callSites := by
  have refs := codeRefsTo_valid (after_valid history e.new_valid) funcEa
  have sites := extractCallSites_made funcEa argTypes raisesAfter declared
    ((e.port.codeRefsTo funcEa).insertionSort (· ≤ ·)) refs.2
  exact ⟨_, by simp only [extractCalls, resolved, refs.1]; rfl, sites⟩

end ParamExtractor

/-! ## Where the values come from -/

/-- The argument holds the value of its slot alone, unless that is unknown and the operand of the
call names a value; then it holds that. -/
structure ArgumentTraced (e : ParamExtractor) (api : HexraysApi) (argTypes : ArgTypes)
    (callEa numArgs : Nat) (slot : ArgSlot) (arg : ArgumentResult) : Prop where
  index : arg.index = slot.index
  processed : arg.processedValue = (argTypes.lookup slot.index).elim arg.rawValue
    fun spec => runPostProcessors e.port spec.postprocessors arg.rawValue
  raw : arg.source = .raw → e.slotValue callEa slot = some arg.rawValue ∧
    (arg.rawValue.isKnown ∨ ∀ info op, Decompiles api callEa info → slot.index < numArgs →
      info.args[slot.index]? = some op → ∀ depth value kind, ¬ Names op depth value kind)
  fallback : arg.source = .hexraysFallback →
    (∃ walked, e.slotValue callEa slot = some walked ∧ walked.isKnown = false) ∧
    ∃ info op depth value kind, Decompiles api callEa info ∧ slot.index < numArgs ∧
      info.args[slot.index]? = some op ∧ Names op depth value kind ∧
      arg.rawValue = named depth value kind

theorem isKnown_named (depth value : Nat) (kind : ValueKind) :
    (named depth value kind).isKnown := by
  cases depth <;> rfl

section Traced

variable {e : ParamExtractor} {api : HexraysApi} {argTypes : ArgTypes} {callEa numArgs : Nat}
variable {slot : ArgSlot} {arg : ArgumentResult}

/-- The decompiler's known entry for a slot is what the operand of the call names. -/
theorem decompiled_known (backend : e.hexrays = some (resolveCallArgs api)) {v : ValueLattice} :
    ((e.decompiled callEa numArgs).bind fun args => args.lookup slot.index).filter (·.isKnown) =
        some v ↔
      ∃ info op depth value kind, Decompiles api callEa info ∧ slot.index < numArgs ∧
        info.args[slot.index]? = some op ∧ Names op depth value kind ∧
        v = named depth value kind := by
  rw [ParamExtractor.decompiled, backend, Option.bind_some, Option.filter_eq_some_iff,
    resolveCallArgs_lookup]
  constructor
  · rintro ⟨⟨info, op, decompiles, below, there, rfl⟩, known⟩
    rcases names_of_known known with ⟨depth, value, kind, names⟩
    exact ⟨info, op, depth, value, kind, decompiles, below, there, names, names.value⟩
  · rintro ⟨info, op, depth, value, kind, decompiles, below, there, names, rfl⟩
    exact ⟨⟨info, op, decompiles, below, there, names.value⟩, isKnown_named depth value kind⟩

theorem argumentTraced (backend : e.hexrays = some (resolveCallArgs api))
    (made : e.MadeFrom argTypes callEa numArgs slot arg) :
    ArgumentTraced e api argTypes callEa numArgs slot arg := by
  rcases made with ⟨walked, alone, rfl⟩
  have processed : ∀ value source,
      (e.argumentResult argTypes slot value source).processedValue =
        (argTypes.lookup slot.index).elim value
          fun spec => runPostProcessors e.port spec.postprocessors value := by
    intro value source
    rw [ParamExtractor.argumentResult]
    cases argTypes.lookup slot.index <;> rfl
  cases known : walked.isKnown with
  | true =>
      have kept : ParamExtractor.filled (e.decompiled callEa numArgs) slot walked =
          (walked, .raw) := ParamExtractor.filled_known known
      rw [ParamExtractor.reportedArgument, kept]
      refine ⟨rfl, processed _ _, fun _ => ⟨alone, Or.inl known⟩, fun other => ?_⟩
      cases other
  | false =>
      cases entry : ((e.decompiled callEa numArgs).bind fun args => args.lookup slot.index).filter
          (·.isKnown) with
      | none =>
          have kept : ParamExtractor.filled (e.decompiled callEa numArgs) slot walked =
              (walked, .raw) := by
            rw [ParamExtractor.filled_unknown known, entry]
            rfl
          rw [ParamExtractor.reportedArgument, kept]
          refine ⟨rfl, processed _ _, fun _ => ⟨alone, Or.inr ?_⟩, fun other => ?_⟩
          · intro info op decompiles below there depth value kind names
            have found := (decompiled_known backend).mpr
              ⟨info, op, depth, value, kind, decompiles, below, there, names, rfl⟩
            rw [entry] at found
            cases found
          · cases other
      | some v =>
          have taken : ParamExtractor.filled (e.decompiled callEa numArgs) slot walked =
              (v, .hexraysFallback) := by
            rw [ParamExtractor.filled_unknown known, entry]
            rfl
          rw [ParamExtractor.reportedArgument, taken]
          refine ⟨rfl, processed _ _, fun other => ?_, fun _ => ⟨⟨walked, alone, known⟩, ?_⟩⟩
          · cases other
          · exact (decompiled_known backend).mp entry

end Traced

/-- With the Hex-Rays backend, after any requests on the same extractor and whichever sites raise,
every argument of a site that does not raise is traced: to its slot alone, or where that is
unknown to the operand of the first call instruction at the site, if that names a value. A site
that raises has unknown arguments only. -/
theorem report_traced (e : ParamExtractor) (api : HexraysApi)
    (backend : e.hexrays = some (resolveCallArgs api)) (history : List Request) {funcEa : Nat}
    {convention : Option CallingConvention} {numArgs : Option Nat} {c : CallingConvention}
    {n : Nat} {slots : List ArgSlot}
    (resolved : e.resolveConvention funcEa convention numArgs = .ok (c, n))
    (declared : c.slots n e.port = .ok slots) (argTypes : ArgTypes)
    (raisesAfter : Nat → Option Nat) :
    ∃ report, (e.extractCalls funcEa convention numArgs argTypes raisesAfter
        (e.after history e.new)).1 = .ok report ∧
      List.Forall₂ (fun ea site => site.callEa = ea ∧ site.funcEa = funcEa ∧
          (raisesAfter ea ≠ none →
            site.arguments = (ParamExtractor.failedSite ea funcEa n).arguments) ∧
          (raisesAfter ea = none →
            List.Forall₂ (ArgumentTraced e api argTypes ea n) slots site.arguments))
        ((e.port.codeRefsTo funcEa).insertionSort (· ≤ ·)) report.callSites := by
  rcases e.extractCalls_made history resolved declared argTypes raisesAfter with
    ⟨report, ran, sites⟩
  refine ⟨report, ran, sites.imp fun ea site made => ?_⟩
  exact ⟨made.address, made.target, fun raised => by rw [made.raised raised],
    fun quiet => (made.made quiet).imp fun _ _ => argumentTraced backend⟩

/-! ### The address of a global -/

namespace Decompiled

open FakeIdaPort

/-- The microcode of the caller of `FastCall`: the second operand is the address of a global. -/
def info : CallInfo where
  args := [.number (some 5), .address (some (.global 0x404000))]

def api : HexraysApi where
  getFunc ea := some (if 0x402000 ≤ ea ∧ ea < 0x40200c then some ⟨0x402000, 0x40200c⟩ else none)
  decompileFunc _ := some (some [[⟨0x402000, .other, none⟩], [⟨0x402007, .call, some (some info)⟩]])

def extractor : ParamExtractor :=
  { FastCall.extractor with hexrays := some (resolveCallArgs api) }

end Decompiled

/-- The register of the second argument is set nowhere; the decompiler has its operand. -/
theorem report_traced_decompiled : ∃ info op depth value kind,
    Decompiles Decompiled.api 0x402007 info ∧ 1 < 2 ∧ info.args[1]? = some op ∧
      Names op depth value kind ∧
      ValueLattice.memoryRef 0x404000 (.unknown' .memoryReadFailed) = named depth value kind := by
  have declared : (CallingConvention.template fastcall).slots 2 Decompiled.extractor.port =
      .ok [fastcall.slot FastCall.port 0, fastcall.slot FastCall.port 1] := rfl
  have resolved : Decompiled.extractor.resolveConvention 0x401000 (some (.template fastcall))
      (some 2) = .ok (.template fastcall, 2) := rfl
  have known : (Decompiled.extractor.extractCalls 0x401000 (some (.template fastcall)) (some 2) []
      (fun _ => none) (Decompiled.extractor.after [] Decompiled.extractor.new)).1 =
        .ok { funcEa := 0x401000, callSites := [
          { callEa := 0x402007, funcEa := 0x401000, arguments := [
            { index := 0, rawValue := .concrete (.int 5) .int,
              processedValue := .concrete (.int 5) .int },
            { index := 1, rawValue := .memoryRef 0x404000 (.unknown' .memoryReadFailed),
              processedValue := .memoryRef 0x404000 (.unknown' .memoryReadFailed),
              source := .hexraysFallback }] }] } := by
    decide +kernel
  rcases report_traced Decompiled.extractor Decompiled.api rfl [] resolved declared []
    (fun _ => none) with ⟨report, ran, sites⟩
  obtain rfl := Except.ok.inj (ran.symm.trans known)
  rcases List.forall₂_cons_right_iff.mp sites with ⟨ea, _, ⟨rfl, -, -, quiet⟩, -, -⟩
  rcases List.forall₂_cons.mp (quiet rfl) with ⟨-, rest⟩
  rcases List.forall₂_cons.mp rest with ⟨second, -⟩
  exact (second.fallback rfl).2

end IDAnalysister
