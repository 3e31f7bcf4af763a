import IDAnalysister.Api.Independence

/-!
# Which slots a report covers

Two conventions can leave an index without a slot: one inferred from a prototype with
locations missing, and one built by hand. What `extract_calls` then reports, at every call
site and after any history of the session.
-/

namespace IDAnalysister

open Effect Prog

variable {e : ParamExtractor}

theorem forall₂_getElem? {α β : Type} {R : α → β → Prop} {xs : List α} {ys : List β}
    (matched : List.Forall₂ R xs ys) {i : Nat} {x : α} {y : β} (left : xs[i]? = some x)
    (right : ys[i]? = some y) : R x y := by
  induction matched generalizing i with
  | nil => cases left
  | cons head _ ih =>
      cases i with
      | zero =>
          cases left
          cases right
          exact head
      | succ i => exact ih left right

theorem exists_site {R : Nat → CallSiteResult → Prop} {refs : List Nat}
    {sites : List CallSiteResult} (each : List.Forall₂ R (refs.insertionSort (· ≤ ·)) sites)
    (called : refs ≠ []) : ∃ ea site, site ∈ sites ∧ R ea site := by
  rcases List.exists_mem_of_ne_nil refs called with ⟨ea, member⟩
  rcases exists_of_forall₂ each ((List.mem_insertionSort _).mpr member) with ⟨site, reported, found⟩
  exact ⟨ea, site, reported, found⟩

/-! ## Inferred prototypes -/

/-- The slot that stands for a location. -/
def ArgLocation.slot (loc : ArgLocation) : ArgSlot :=
  if loc.isRegister then
    { index := loc.index, kind := .register, reg := loc.reg, push_isSome := nofun }
  else
    { index := loc.index, kind := .stackOffset, stackOffset := loc.stackOffset
      push_isSome := nofun }

namespace FunctionPrototype

variable {p : FunctionPrototype}

theorem byIndex_eq (distinct : (p.argLocations.map (·.index)).Nodup) {loc : ArgLocation}
    (member : loc ∈ p.argLocations) : p.byIndex loc.index = some loc := by
  cases found : p.byIndex loc.index with
  | none =>
      have missed := List.find?_eq_none.mp found loc (List.mem_reverse.mpr member)
      simp at missed
  | some loc' =>
      have member' : loc' ∈ p.argLocations := List.mem_reverse.mp (List.mem_of_find?_eq_some found)
      have same : loc'.index = loc.index := by simpa using List.find?_some found
      rw [List.inj_on_of_nodup_map distinct member' member same]

theorem slot_eq (distinct : (p.argLocations.map (·.index)).Nodup) {loc : ArgLocation}
    (member : loc ∈ p.argLocations) : p.slot loc.index = loc.slot := by
  rw [slot, byIndex_eq distinct member]
  rfl

/-- Every location has a smaller index than there are locations: with distinct indices, none
is missing below another. -/
def Gapless (p : FunctionPrototype) : Prop := ∀ loc ∈ p.argLocations, loc.index < p.argCount

/-- Without a gap every index below the count has a location. -/
theorem Gapless.exists_location (gapless : p.Gapless)
    (distinct : (p.argLocations.map (·.index)).Nodup) {index : Nat} (below : index < p.argCount) :
    ∃ loc ∈ p.argLocations, loc.index = index := by
  have within : p.argLocations.map (·.index) ⊆ List.range p.argCount := by
    intro i member
    rcases List.mem_map.mp member with ⟨loc, located, rfl⟩
    exact List.mem_range.mpr (gapless loc located)
  have all := (List.subperm_of_subset distinct within).perm_of_length_le (by simp [argCount])
  exact List.mem_map.mp (all.mem_iff.mpr (List.mem_range.mpr below))

/-- What the arguments of a call site say of the locations of a prototype. -/
structure CoveredBy (p : FunctionPrototype) (e : ParamExtractor) (raises : Option Nat)
    (site : CallSiteResult) : Prop where
  /-- An argument stands for each location: the convention gives its index the slot of the
  location, and what the raw walk reports of it is the value of that slot. -/
  located : ∀ loc ∈ p.argLocations, ∃ arg ∈ site.arguments, arg.index = loc.index ∧
    p.slot arg.index = loc.slot ∧
      (raises = none → arg.source = .raw → e.slotValue site.callEa loc.slot = some arg.rawValue)
  /-- An index without a location resolves to nothing. -/
  unlocated : ∀ arg ∈ site.arguments, (∀ loc ∈ p.argLocations, loc.index ≠ arg.index) →
    arg.rawValue.isKnown = false

theorem Gapless.coveredBy (gapless : p.Gapless) (distinct : (p.argLocations.map (·.index)).Nodup)
    {funcEa ea : Nat} {raises : Option Nat} {site : CallSiteResult} {slots : List ArgSlot}
    (indexed : slots.map (·.index) = List.range p.argCount)
    (named : ∀ i < p.argCount, slots[i]? = some (p.slot i))
    (found : SiteSlots e funcEa slots ea raises site) : p.CoveredBy e raises site where
  located loc member := by
    have below := gapless loc member
    have at' : (site.arguments.map (·.index))[loc.index]? = some loc.index := by
      rw [found.indices.trans indexed, List.getElem?_range below]
    rw [List.getElem?_map] at at'
    rcases Option.map_eq_some_iff.mp at' with ⟨arg, entry, same⟩
    refine ⟨arg, List.mem_of_getElem? entry, same, same ▸ slot_eq distinct member, ?_⟩
    intro quiet walked
    have stands := forall₂_getElem? (found.stands quiet) (named loc.index below) entry
    rw [found.callEa, ← slot_eq distinct member]
    exact stands.raw walked
  unlocated arg member missing := by
    have indices := found.indices.trans indexed
    have below : arg.index < p.argCount :=
      List.mem_range.mp (indices ▸ List.mem_map_of_mem member)
    rcases gapless.exists_location distinct below with ⟨loc, located, same⟩
    exact (missing loc located same).elim

end FunctionPrototype

/-- An inferred prototype covers every declared argument at every call site exactly when no
index is missing below another, or nothing calls the function. -/
theorem extractCalls_prototype_iff (e : ParamExtractor) (history : List Request) {funcEa : Nat}
    {p : FunctionPrototype} (inferred : inferPrototype e.port funcEa = some p)
    (distinct : (p.argLocations.map (·.index)).Nodup) (argTypes : ArgTypes)
    (raisesAfter : Nat → Option Nat) :
    ∃ report, (e.extractCalls funcEa none none argTypes raisesAfter
        (e.after history e.new)).1 = .ok report ∧
      ((∀ site ∈ report.callSites, p.CoveredBy e (raisesAfter site.callEa) site) ↔
        (∀ loc ∈ p.argLocations, loc.index < p.argLocations.length) ∨
          e.port.codeRefsTo funcEa = []) := by
  have resolved : e.resolveConvention funcEa none none = .ok (.prototype p, p.argCount) := by
    simp [ParamExtractor.resolveConvention, inferred]
  have builtin : (CallingConvention.prototype p).Builtin := Or.inr ⟨p, rfl⟩
  rcases builtin.slots_ok e.port p.argCount with ⟨slots, declared, indexed, named⟩
  rcases extractCalls_slots e history resolved declared indexed argTypes raisesAfter with
    ⟨report, ran, sites⟩
  refine ⟨report, ran, fun covered => ?_, ?_⟩
  · rcases eq_or_ne (e.port.codeRefsTo funcEa) [] with uncalled | called
    · exact Or.inr uncalled
    · refine Or.inl fun loc member => ?_
      rcases exists_site sites called with ⟨ea, site, reported, found⟩
      rcases (covered site reported).located loc member with ⟨arg, argument, same, -⟩
      rw [← same]
      exact List.mem_range.mp ((found.indices.trans indexed) ▸ List.mem_map_of_mem argument)
  · rintro (gapless | uncalled)
    · intro site member
      rcases exists_of_forall₂ sites.flip member with ⟨ea, -, found⟩
      rw [found.callEa]
      exact FunctionPrototype.Gapless.coveredBy gapless distinct indexed
        (fun i below => named i below _ rfl) found
    · rw [uncalled] at sites
      intro site member
      rw [List.forall₂_nil_left_iff.mp sites] at member
      cases member

namespace Prototyped

/-- The two call sites, with a prototype for the function they call. -/
def extractor (p : FunctionPrototype) : ParamExtractor where
  port := { TwoSites.port with getPrototype := fun funcEa => List.lookup funcEa [(0x401000, p)] }
  registry := defaultRegistry

/-- The argument between the two has a location that the adapter cannot represent. -/
def gap : FunctionPrototype where
  callingConvention := "fastcall"
  argLocations := [{ index := 0, isRegister := true, reg := some 1 },
    { index := 2, isRegister := false, stackOffset := some 0 }]

def whole : FunctionPrototype where
  callingConvention := "fastcall"
  argLocations := [{ index := 0, isRegister := true, reg := some 1 },
    { index := 1, isRegister := false, stackOffset := some 0 }]

theorem gap_not_covered :
    inferPrototype (extractor gap).port 0x401000 = some gap ∧
      (gap.argLocations.map (·.index)).Nodup ∧
      ∃ report, ((extractor gap).extractCalls 0x401000 none none [] (fun _ => none)
          (extractor gap).new).1 = .ok report ∧
        ¬ ∀ site ∈ report.callSites, gap.CoveredBy (extractor gap) none site := by
  refine ⟨rfl, by decide, ?_⟩
  rcases @extractCalls_slots (extractor gap) [] 0x401000 none none _ _
      [gap.slot 0, gap.slot 1] rfl rfl rfl [] (fun _ => none) with ⟨report, ran, sites⟩
  refine ⟨report, ran, fun covered => ?_⟩
  rcases exists_site sites (by decide) with ⟨ea, site, reported, found⟩
  rcases (covered site reported).located _ (List.mem_of_getLast? rfl) with ⟨arg, argument, same, -⟩
  have listed : arg.index ∈ site.arguments.map (·.index) := List.mem_map_of_mem argument
  rw [found.indices, same] at listed
  exact absurd listed (by decide)

theorem whole_covered :
    ∃ report, ((extractor whole).extractCalls 0x401000 none none [] (fun _ => none)
        ((extractor whole).after TwoSites.history (extractor whole).new)).1 = .ok report ∧
      ∀ site ∈ report.callSites, whole.CoveredBy (extractor whole) none site := by
  rcases @extractCalls_prototype_iff (extractor whole) TwoSites.history 0x401000 whole rfl
      (by decide) [] (fun _ => none) with ⟨report, ran, covered⟩
  exact ⟨report, ran, covered.mpr (Or.inl (by decide))⟩

end Prototyped

/-! ## Conventions built by hand -/

/-- One call on a `ConventionBuilder`. -/
inductive BuilderCall
  | reg (index : Int) (registerName : String)
  | stackOffset (index offset : Int)
  | stackPush (index position : Int)

namespace BuilderCall

def index : BuilderCall → Int
  | reg index _ => index
  | stackOffset index _ => index
  | stackPush index _ => index

/-- What the call adds to the builder's dictionaries. No index below zero is ever looked up. -/
def add (c : CustomConvention) : BuilderCall → CustomConvention
  | reg (.ofNat index) registerName => c.addReg index registerName
  | stackOffset (.ofNat index) offset => c.addStackOffset index offset
  | stackPush (.ofNat index) position => c.addStackPush index position
  | _ => c

end BuilderCall

/-- `ConventionBuilder(name)`, the calls on it in order, and `build`. -/
def buildConvention (name : String) (calls : List BuilderCall) : CustomConvention :=
  calls.foldl BuilderCall.add { name }

namespace CustomConvention

/-- One of the two dictionaries has the index. -/
def Declares (c : CustomConvention) (index : Nat) : Prop :=
  (c.registerNames.lookup index).isSome ∨ (c.slotSpecs.lookup index).isSome

theorem isSome_lookup_cons {ν : Type} (k : Nat) (v : ν) (entries : List (Nat × ν)) (index : Nat) :
    (((k, v) :: entries).lookup index).isSome ↔ (entries.lookup index).isSome ∨ k = index := by
  rw [List.lookup_cons]
  rcases eq_or_ne index k with rfl | other
  · simp
  · rw [beq_false_of_ne other]
    simp [other.symm]

theorem declares_add (c : CustomConvention) (call : BuilderCall) (index : Nat) :
    (call.add c).Declares index ↔ c.Declares index ∨ call.index = index := by
  rcases call with ⟨i | i, _⟩ | ⟨i | i, _⟩ | ⟨i | i, _⟩ <;>
    simp only [BuilderCall.add, BuilderCall.index, Declares, addReg, addStackOffset, addStackPush,
      isSome_lookup_cons]
  · have same : Int.ofNat i = index ↔ i = index := Int.ofNat_inj
    rw [same, or_right_comm]
  · simp
  · have same : Int.ofNat i = index ↔ i = index := Int.ofNat_inj
    rw [same, or_assoc]
  · simp
  · have same : Int.ofNat i = index ↔ i = index := Int.ofNat_inj
    rw [same, or_assoc]
  · simp

theorem declares_build {name : String} {calls : List BuilderCall} {index : Nat} :
    (buildConvention name calls).Declares index ↔ ∃ call ∈ calls, call.index = index := by
  induction calls using List.reverseRecOn with
  | nil => simp [buildConvention, Declares]
  | append_singleton calls call ih =>
      rw [buildConvention, List.foldl_concat, declares_add, ← buildConvention, ih]
      simp [or_and_right, exists_or]

theorem slot_error_iff {c : CustomConvention} {port : FacadePort} {index : Nat} :
    (∃ message, c.slot port index = .error message) ↔ ¬ c.Declares index := by
  unfold slot Declares
  cases c.registerNames.lookup index <;> cases c.slotSpecs.lookup index <;> simp

end CustomConvention

/-- A traversal fails where one of its members does. -/
theorem mapM_error_iff {α β ε : Type} {f : α → Except ε β} {xs : List α} :
    (∃ err, xs.mapM f = .error err) ↔ ∃ x ∈ xs, ∃ err, f x = .error err := by
  induction xs with
  | nil =>
      refine ⟨?_, ?_⟩
      · rintro ⟨err, raised⟩
        cases raised
      · rintro ⟨x, member, -⟩
        cases member
  | cons x xs ih =>
      rw [List.mapM_cons, List.exists_mem_cons_iff, ← ih]
      cases head : f x with
      | error err => exact ⟨fun _ => Or.inl ⟨err, rfl⟩, fun _ => ⟨err, rfl⟩⟩
      | ok y =>
          cases rest : xs.mapM f with
          | error err => exact ⟨fun _ => Or.inr ⟨err, rfl⟩, fun _ => ⟨err, rfl⟩⟩
          | ok ys =>
              refine ⟨?_, ?_⟩
              · rintro ⟨err, raised⟩
                cases raised
              · rintro (⟨err, raised⟩ | ⟨err, raised⟩) <;> cases raised

theorem CallingConvention.slots_error_iff {c : CustomConvention} {port : FacadePort}
    {numArgs : Nat} :
    (∃ message, (CallingConvention.custom c).slots numArgs port = .error message) ↔
      ∃ index < numArgs, ¬ c.Declares index := by
  rw [CallingConvention.slots, mapM_error_iff]
  simp only [List.mem_range]
  exact exists_congr fun index => and_congr_right fun _ => CustomConvention.slot_error_iff

/-- With the argument count given, `extract_calls` raises nothing. -/
theorem extractCalls_ok (e : ParamExtractor) (funcEa : Nat) (convention : CallingConvention)
    (numArgs : Nat) (argTypes : ArgTypes) (raisesAfter : Nat → Option Nat) (s : SessionState) :
    ∃ report, (e.extractCalls funcEa (some convention) (some numArgs) argTypes raisesAfter s).1 =
      .ok report := ⟨_, rfl⟩

/-- Where an index has no slot every call site gets the result of a failure. -/
theorem extractCallSites_incomplete (e : ParamExtractor) (funcEa : Nat)
    {convention : CallingConvention}
    {numArgs : Nat} {message : String}
    (raises : convention.slots numArgs e.port = .error message) (argTypes : ArgTypes)
    (raisesAfter : Nat → Option Nat) (refs : List Nat) (s : SessionState) :
    (e.extractCallSites funcEa convention numArgs argTypes raisesAfter refs s).1 =
      refs.map fun callEa => ParamExtractor.failedSite callEa funcEa numArgs := by
  induction refs generalizing s with
  | nil => rfl
  | cons callEa rest ih =>
      have failed : (e.extractOneCallSafe callEa funcEa convention numArgs argTypes
          (raisesAfter callEa) s).1 = ParamExtractor.failedSite callEa funcEa numArgs := by
        unfold ParamExtractor.extractOneCallSafe ParamExtractor.extractOneCall
        rw [raises]
        cases raisesAfter callEa <;> rfl
      rw [List.map_cons, ← failed, ← ih]
      rfl

/-- An undeclared index shows in the report only as a failure of every call site. -/
theorem extractCalls_incomplete (e : ParamExtractor) (funcEa : Nat) {convention : CallingConvention}
    {numArgs : Nat} {message : String}
    (raises : convention.slots numArgs e.port = .error message) (argTypes : ArgTypes)
    (raisesAfter : Nat → Option Nat) (s : SessionState) :
    ∃ report, (e.extractCalls funcEa (some convention) (some numArgs) argTypes raisesAfter s).1 =
        .ok report ∧
      report.callSites = ((e.sessionHandler (.codeRefsTo funcEa) s).1.insertionSort (· ≤ ·)).map
        fun callEa => ParamExtractor.failedSite callEa funcEa numArgs :=
  ⟨_, rfl, extractCallSites_incomplete e funcEa raises argTypes raisesAfter _ _⟩

/-- What is asked of `extract_calls` with a convention built by `calls`: it raises exactly when
an index below the count has no slot, and reports no call site as a failure because of it. -/
structure IncompleteReported (e : ParamExtractor) (funcEa numArgs : Nat) (c : CustomConvention)
    (calls : List BuilderCall) (answer : Except String ExtractionReport) : Prop where
  raises : (∃ message, answer = .error message) ↔
    ∃ index < numArgs, ¬ ∃ call ∈ calls, call.index = index
  silent : ∀ report, answer = .ok report → ∀ message,
    (CallingConvention.custom c).slots numArgs e.port = .error message →
      ∀ site ∈ report.callSites, site ≠ ParamExtractor.failedSite site.callEa funcEa numArgs

/-- An incomplete convention is never reported. -/
theorem extractCalls_custom_iff (e : ParamExtractor) (history : List Request) (funcEa : Nat)
    (name : String) (calls : List BuilderCall) (numArgs : Nat) (argTypes : ArgTypes)
    (raisesAfter : Nat → Option Nat) :
    IncompleteReported e funcEa numArgs (buildConvention name calls) calls
        (e.extractCalls funcEa (some (.custom (buildConvention name calls))) (some numArgs)
          argTypes raisesAfter (e.after history e.new)).1 ↔
      ∀ index < numArgs, ∃ call ∈ calls, call.index = index := by
  rcases extractCalls_ok e funcEa (.custom (buildConvention name calls)) numArgs argTypes
    raisesAfter (e.after history e.new) with ⟨report, ran⟩
  rw [ran]
  refine ⟨fun reported index below => ?_, fun complete => ⟨?_, ?_⟩⟩
  · by_contra undeclared
    rcases reported.raises.mpr ⟨index, below, undeclared⟩ with ⟨message, raised⟩
    cases raised
  · refine ⟨?_, ?_⟩
    · rintro ⟨message, raised⟩
      cases raised
    · rintro ⟨index, below, undeclared⟩
      exact (undeclared (complete index below)).elim
  · intro report same message raised
    rcases CallingConvention.slots_error_iff.mp ⟨message, raised⟩ with ⟨index, below, undeclared⟩
    exact (undeclared (CustomConvention.declares_build.mpr (complete index below))).elim

namespace Incomplete

/-- `ConventionBuilder("incomplete").reg(0, "ecx")`. -/
def calls : List BuilderCall := [.reg 0 "ecx"]

theorem twoSites_unreported :
    TwoSites.port.codeRefsTo 0x401000 ≠ [] ∧
      ¬ IncompleteReported TwoSites.extractor 0x401000 2 (buildConvention "incomplete" calls) calls
        (TwoSites.extractor.extractCalls 0x401000
          (some (.custom (buildConvention "incomplete" calls))) (some 2) [] (fun _ => none)
          TwoSites.extractor.new).1 := by
  have undeclared : ¬ (buildConvention "incomplete" calls).Declares 1 := by
    rw [CustomConvention.declares_build]
    simp [calls, BuilderCall.index]
  rcases (@CallingConvention.slots_error_iff _ TwoSites.port 2).mpr
    ⟨1, Nat.lt_succ_self 1, undeclared⟩ with ⟨message, raises⟩
  rcases extractCalls_incomplete TwoSites.extractor 0x401000 raises [] (fun _ => none)
    TwoSites.extractor.new with ⟨report, ran, sites⟩
  have both : ((TwoSites.extractor.sessionHandler (.codeRefsTo 0x401000)
      TwoSites.extractor.new).1.insertionSort (· ≤ ·)) = [0x402005, 0x40200f] := by decide
  rw [both] at sites
  refine ⟨by decide, fun reported => ?_⟩
  -- The first site passes for a failure, and the report says nothing of slot 1.
  refine reported.silent report ran message raises
    (ParamExtractor.failedSite 0x402005 0x401000 2) ?_ rfl
  rw [sites]
  exact List.mem_cons_self

end Incomplete

end IDAnalysister
