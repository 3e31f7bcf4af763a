import IDAnalysister.Adapters.IdaDatabase
import IDAnalysister.Api.Coverage

/-!
# Declared arguments

What becomes of the arguments that a function type declares, from `get_prototype` of the adapter
over the inferred convention to the report. The adapter omits a place that it cannot represent
and the convention counts what is left, so a report has as many arguments as there are
representable places, and they stand for the first of the declared ones.
-/

namespace IDAnalysister

open IdaPortImpl

namespace ArgLoc

def isRepresentable : ArgLoc → Bool
  | unsupported => false
  | _ => true

/-- What the inferred convention gives for the place of the argument with an index. -/
def slot (index : Nat) : ArgLoc → ArgSlot
  | reg1 reg | reg2 reg => ArgLocation.slot { index, isRegister := true, reg := some reg }
  | stkoff offset =>
      ArgLocation.slot { index, isRegister := false, stackOffset := some offset }
  | unsupported => ArgLocation.slot { index, isRegister := true }

end ArgLoc

section Locations

variable {api : IdaApi} {args : List ArgLoc} {i : Nat} {place : ArgLoc}

theorem argLocation_isSome : (argLocation i place).isSome = place.isRepresentable := by
  cases place <;> rfl

theorem index_of_argLocation {loc : ArgLocation} (made : argLocation i place = some loc) :
    loc.index = i ∧ loc.slot = place.slot i := by
  cases place <;> cases made <;> exact ⟨rfl, rfl⟩

theorem mem_argLocations {loc : ArgLocation} :
    loc ∈ argLocations args ↔
      ∃ i place, args[i]? = some place ∧ argLocation i place = some loc := by
  simp only [argLocations, List.mem_filterMap, Prod.exists, List.mem_zipIdx_iff_getElem?]
  exact exists_comm

/-- The indices of the locations are those of the representable places, in order. -/
theorem argLocations_indices : (argLocations args).map (·.index) =
    (args.zipIdx.filter fun arg => arg.1.isRepresentable).map (·.2) := by
  rw [argLocations]
  induction args.zipIdx with
  | nil => rfl
  | cons arg rest ih =>
      cases made : argLocation arg.2 arg.1 with
      | none =>
          have lost : arg.1.isRepresentable = false := by
            rw [← argLocation_isSome (i := arg.2), made]
            rfl
          rw [List.filterMap_cons_none
              (f := fun arg : ArgLoc × Nat => argLocation arg.2 arg.1) made,
            List.filter_cons_of_neg (by simp [lost]), ih]
      | some loc =>
          have kept : arg.1.isRepresentable = true := by
            rw [← argLocation_isSome (i := arg.2), made]
            rfl
          rw [List.filterMap_cons_some
              (f := fun arg : ArgLoc × Nat => argLocation arg.2 arg.1) made,
            List.filter_cons_of_pos (by simpa using kept), List.map_cons, List.map_cons, ih,
            (index_of_argLocation made).1]

theorem argLocations_distinct (args : List ArgLoc) :
    ((argLocations args).map (·.index)).Nodup := by
  have indices : args.zipIdx.map (·.2) = List.range' 0 args.length := List.zipIdx_map_snd ..
  have kept := (List.filter_sublist (p := fun arg => arg.1.isRepresentable)
    (l := args.zipIdx)).map (·.2)
  rw [argLocations_indices]
  rw [indices] at kept
  exact kept.nodup List.nodup_range'

theorem length_argLocations (args : List ArgLoc) :
    (argLocations args).length = args.countP (·.isRepresentable) := by
  have counted := congrArg List.length (@argLocations_indices args)
  rw [List.length_map, List.length_map, ← List.countP_eq_length_filter] at counted
  rw [counted]
  have firsts : args.zipIdx.map (·.1) = args := List.zipIdx_map_fst ..
  conv_rhs => rw [← firsts, List.countP_map]
  rfl

/-- The inferred convention has for each declared argument the slot of its place. -/
theorem slot_prototypeOf {details : FuncDetails} (declared : details.args[i]? = some place) :
    (prototypeOf api details).slot i = place.slot i := by
  cases made : argLocation i place with
  | some loc =>
      rcases index_of_argLocation made with ⟨same, slot⟩
      have listed : loc ∈ (prototypeOf api details).argLocations :=
        mem_argLocations.mpr ⟨i, place, declared, made⟩
      rw [← slot, ← FunctionPrototype.slot_eq (argLocations_distinct details.args) listed, same]
  | none =>
      have lost : place = .unsupported := by
        cases place <;> first | rfl | cases made
      subst lost
      have missing : (prototypeOf api details).byIndex i = none := by
        refine List.find?_eq_none.mpr fun loc member => ?_
        rcases mem_argLocations.mp (List.mem_reverse.mp member) with ⟨j, place, given, made'⟩
        rw [decide_eq_true_eq]
        rintro rfl
        rw [(index_of_argLocation made').1] at declared made
        rw [given] at declared
        cases declared
        rw [made] at made'
        cases made'
      rw [FunctionPrototype.slot, missing]
      rfl

/-- The database has a type for the function or guesses one, and it declares these arguments. -/
inductive Declares (api : IdaApi) (funcEa : Nat) (details : FuncDetails) : Prop
  | known : api.getTinfo funcEa = some (some ⟨true, some details⟩) → Declares api funcEa details
  | guessed : api.getTinfo funcEa = some none →
    api.guessTinfo funcEa = some (some ⟨true, some details⟩) → Declares api funcEa details

theorem Declares.getPrototype {funcEa : Nat} {details : FuncDetails}
    (declares : Declares api funcEa details) :
    IdaPortImpl.getPrototype api funcEa = some (prototypeOf api details) := by
  rw [IdaPortImpl.getPrototype]
  cases declares with
  | known typed =>
      rw [typed]
      rfl
  | guessed untyped typed =>
      rw [untyped]
      change safe none ((api.guessTinfo funcEa).bind _) = _
      rw [typed]
      rfl

end Locations

/-! ## Reports -/

section Reports

variable {api : IdaApi} {e : ParamExtractor} {funcEa n : Nat} {details : FuncDetails}

/-- What a report says of the arguments that a type declares: one argument for each
representable place, and each of them stands for the declared argument of its own index. -/
structure ReportsDeclared (e : ParamExtractor) (details : FuncDetails) (raises : Option Nat)
    (site : CallSiteResult) : Prop where
  indices : site.arguments.map (·.index) =
    List.range (details.args.countP (·.isRepresentable))
  stands : raises = none → ∀ arg ∈ site.arguments, ∃ place, details.args[arg.index]? = some place ∧
    (arg.source = .raw → e.slotValue site.callEa (place.slot arg.index) = some arg.rawValue)

theorem reportsDeclared {ea : Nat} {raises : Option Nat} {site : CallSiteResult}
    {slots : List ArgSlot}
    (indexed : slots.map (·.index) = List.range (prototypeOf api details).argCount)
    (named : ∀ i < (prototypeOf api details).argCount,
      slots[i]? = some ((prototypeOf api details).slot i))
    (found : SiteSlots e funcEa slots ea raises site) : ReportsDeclared e details raises site := by
  have count : (prototypeOf api details).argCount =
      details.args.countP (·.isRepresentable) := length_argLocations details.args
  refine ⟨by rw [found.indices, indexed, count], fun quiet arg member => ?_⟩
  rcases List.getElem?_of_mem member with ⟨i, entry⟩
  have listed : (site.arguments.map (·.index))[i]? = some arg.index := by
    rw [List.getElem?_map, entry]
    rfl
  rw [found.indices, indexed, count] at listed
  rcases List.getElem?_eq_some_iff.mp listed with ⟨below, same⟩
  rw [List.getElem_range] at same
  subst same
  rw [List.length_range] at below
  have declared := List.countP_le_length (p := (·.isRepresentable)) (l := details.args)
  have place := List.getElem?_eq_getElem (show arg.index < details.args.length by omega)
  have slot := named arg.index (count ▸ below)
  rw [slot_prototypeOf place] at slot
  refine ⟨_, place, fun walked => ?_⟩
  rw [found.callEa]
  exact (forall₂_getElem? (found.stands quiet) slot entry).raw walked

end Reports

/-- Over the adapter, a report on a function with a declared type says at every call site what
stands in the places of the first declared arguments, as many as there are representable places:
an omitted place that another follows is reported as unknown, and costs an argument at the end. -/
theorem extractCalls_declared (e : ParamExtractor) (api : IdaApi) (onDatabase : e.port = port api)
    (history : List Request) {funcEa : Nat} {details : FuncDetails}
    (declares : Declares api funcEa details) (typed : ∃ place ∈ details.args, place.isRepresentable)
    (argTypes : ArgTypes) (raisesAfter : Nat → Option Nat) :
    ∃ report, (e.extractCalls funcEa none none argTypes raisesAfter
        (e.after history e.new)).1 = .ok report ∧
      (report.callSites.map (·.callEa)).Pairwise (· < ·) ∧
      (∀ ea, ea ∈ report.callSites.map (·.callEa) ↔ Refers api funcEa ea) ∧
      ∀ site ∈ report.callSites, ReportsDeclared e details (raisesAfter site.callEa) site := by
  have prototype : e.port.getPrototype funcEa = some (prototypeOf api details) := by
    rw [onDatabase]
    exact declares.getPrototype
  have nonempty : (prototypeOf api details).argLocations ≠ [] := by
    rcases typed with ⟨place, member, representable⟩
    have positive := List.countP_pos_iff.mpr ⟨place, member, representable⟩
    rw [← length_argLocations] at positive
    exact List.ne_nil_of_length_pos positive
  have inferred : inferPrototype e.port funcEa = some (prototypeOf api details) := by
    rw [inferPrototype, prototype]
    simp [Option.filter, nonempty]
  have resolved : e.resolveConvention funcEa none none =
      .ok (.prototype (prototypeOf api details), (prototypeOf api details).argCount) := by
    simp [ParamExtractor.resolveConvention, inferred]
  have builtin : (CallingConvention.prototype (prototypeOf api details)).Builtin :=
    Or.inr ⟨_, rfl⟩
  rcases builtin.slots_ok e.port (prototypeOf api details).argCount with
    ⟨slots, declared, indexed, named⟩
  rcases extractCalls_slots e history resolved declared indexed argTypes raisesAfter with
    ⟨report, ran, sites⟩
  have increases := codeRefsTo_increases api funcEa
  have addresses : report.callSites.map (·.callEa) = codeRefsTo api funcEa := by
    have refs : e.port.codeRefsTo funcEa = codeRefsTo api funcEa := by
      rw [onDatabase]
      rfl
    have ordered : (codeRefsTo api funcEa).Pairwise (· ≤ ·) := increases.imp fun less => less.le
    rw [SiteOf.addresses (sites.imp fun _ _ => SiteSlots.siteOf), refs, ordered.insertionSort_eq]
  refine ⟨report, ran, addresses ▸ increases, fun ea => ?_, fun site member => ?_⟩
  · rw [addresses]
    exact mem_codeRefsTo
  · rcases exists_of_forall₂ sites.flip member with ⟨ea, -, found⟩
    rw [found.callEa]
    exact reportsDeclared indexed (fun i below => named i below _ rfl) found

namespace Declared

/-- A register, a place that the adapter cannot represent, and the stack. -/
def details : FuncDetails := ⟨0x70, [.reg1 1, .unsupported, .stkoff 0]⟩

/-- One of the two references is reported twice. -/
def api : IdaApi :=
  { DatabaseLoop.api with
    getTinfo := fun funcEa => some (if funcEa = 0x401000 then some ⟨true, some details⟩ else none)
    xrefsTo := fun _ =>
      some [⟨.callNear, 0x402010⟩, ⟨.jumpNear, 0x402000⟩, ⟨.callNear, 0x402010⟩] }

def extractor : ParamExtractor where
  port := port api
  registry := defaultRegistry

end Declared

/-- The third declared argument is in no call site of the report. -/
theorem extractCalls_declared_gap : ∃ report,
    (Declared.extractor.extractCalls 0x401000 none none [] (fun _ => none)
      (Declared.extractor.after [] Declared.extractor.new)).1 = .ok report ∧
    (∃ site ∈ report.callSites, site.callEa = 0x402000) ∧
    ∀ site ∈ report.callSites, site.arguments.map (·.index) = [0, 1] := by
  have typed : ∃ place ∈ Declared.details.args, place.isRepresentable :=
    ⟨.reg1 1, List.mem_cons_self, rfl⟩
  have declares : Declares Declared.api 0x401000 Declared.details := .known rfl
  rcases extractCalls_declared Declared.extractor Declared.api rfl [] declares typed []
    (fun _ => none) with ⟨report, ran, -, sites, declared⟩
  refine ⟨report, ran, ?_, fun site member => (declared site member).indices⟩
  have refers : Refers Declared.api 0x401000 0x402000 :=
    ⟨_, rfl, ⟨.jumpNear, 0x402000⟩, by simp, by decide, rfl⟩
  rcases List.mem_map.mp ((sites 0x402000).mpr refers) with ⟨site, member, at'⟩
  exact ⟨site, member, at'⟩

end IDAnalysister
