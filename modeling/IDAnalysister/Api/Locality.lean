import IDAnalysister.Adapters.IdaDatabase
import IDAnalysister.Api.Patches
import IDAnalysister.Backward.Locality
import IDAnalysister.Locators.ExtensionPoints

/-!
# Requests that other addresses do not disturb

What a request is answered depends on the region that the resolver looks at from its addresses.
As long as no address of that region is stale and no patch changed its function starts and
graphs, the request is answered as by a new extractor on the database as it is now, whatever is
stale elsewhere (`region_coherent`).
-/

namespace IDAnalysister

open Effect Prog Memo

variable {e : ParamExtractor} {R stale starts graphs : Set Nat} {s s' : SessionState}

/-! ## Session programs -/

/-- The effects of a session that look at the database in a region only. -/
def SessionOp.LooksIn (port : FacadePort) (R : Set Nat) : SessionOp → Prop
  | resolver o => o.LooksIn port.toIdaPort R
  | codeRefsTo _ => False
  | _ => True

/-- The resolver's answers are those of the port. -/
def SessionOp.Honest (port : FacadePort) : (o : SessionOp) → Session.Ans o → Prop
  | resolver o, r => Event.Honest port.toIdaPort ⟨o, r⟩
  | _, _ => True

/-- Answered by the port, a session program looks at the database in a region only. -/
abbrev ParamExtractor.Stays (e : ParamExtractor) (R : Set Nat) {α : Type} (p : Prog Session α)
    (good : α → Prop := fun _ => True) : Prop :=
  Confined (SessionOp.LooksIn e.port R) (SessionOp.Honest e.port) good p

theorem session_pure {α : Type} (a : α) : e.Stays R (Prog.pure a : Prog Session α) := .pure trivial

theorem lift_stays {α : Type} {q : Query α} {good : α → Prop}
    (stays : Stays e.port.toIdaPort R q good) : e.Stays R (Session.lift q) good := by
  refine Confined.interpret (fun o inside => ?_) stays
  exact .call inside fun r answered => .pure answered

theorem fresh_stays {q : Query ValueLattice} (stays : Stays e.port.toIdaPort R q) :
    e.Stays R (Session.fresh q) := .call trivial fun _ _ => lift_stays stays

theorem hexraysArgs_stays (callEa numArgs : Nat) (tried : Option (Option CallArgs)) :
    e.Stays R (ParamExtractor.hexraysArgs callEa numArgs tried) := by
  cases tried with
  | some answer => exact session_pure answer
  | none => exact .call trivial fun answer _ => session_pure answer

theorem fallBack_stays (callEa numArgs : Nat) (slot : ArgSlot) (raw : ValueLattice)
    (tried : Option (Option CallArgs)) :
    e.Stays R (e.fallBack callEa numArgs slot raw tried) := by
  unfold ParamExtractor.fallBack
  split
  · exact session_pure _
  · refine (hexraysArgs_stays callEa numArgs tried).bind fun answer _ => ?_
    split
    · exact session_pure _
    · exact session_pure _

/-- Everything between the start of the function and the call. -/
def PushesIn (port : IdaPort) (R : Set Nat) (callEa : Nat) : Prop :=
  ∀ f, port.getFuncStart callEa = some f → ∀ x, f ≤ x → x < callEa → x ∈ R

/-- A position names one of the collected pushes. -/
theorem mem_of_pushAt {pushes : List Nat} {position : Int} {ea : Nat}
    (found : ParamExtractor.pushAt pushes position = some ea) : ea ∈ pushes := by
  unfold ParamExtractor.pushAt at found
  dsimp only at found
  split at found
  · cases found
  · exact List.mem_of_getElem? found

section Sites

variable (heads : PlacedHeads e.port.toIdaPort) (region : Region e.port.toIdaPort R)
variable (each : ∀ l ∈ e.registry.all, l.Local)

include heads region each

/-- Resolving a slot stays in the region. -/
theorem resolveSlot_stays {callEa : Nat} (member : callEa ∈ R) (slot : ArgSlot)
    {pushes : List Nat} (collected : ∀ x ∈ pushes, x ∈ R) :
    e.Stays R (e.resolveSlot callEa slot pushes) := by
  have query : ∀ q : PublicQuery, q.ea ∈ R →
      e.Stays R (Session.fresh (e.resolver.program e.resolver.fuel q)) := fun q inside =>
    fresh_stays (@program_stays e.resolver R heads region each e.resolver.fuel q inside)
  unfold ParamExtractor.resolveSlot
  split
  · split
    · exact session_pure _
    · rename_i ea found
      exact query (.atInstruction ea 0) (collected ea (mem_of_pushAt found))
  · split
    · split
      · exact session_pure _
      · exact query (.register _ callEa) member
    · split
      · exact session_pure _
      · exact query (.memory _ _ callEa _) member

/-- So does the loop over the slots. -/
theorem extractArguments_stays {callEa : Nat} (member : callEa ∈ R) (numArgs : Nat)
    {pushes : List Nat} (collected : ∀ x ∈ pushes, x ∈ R) (argTypes : ArgTypes)
    (tried : Option (Option CallArgs)) (slots : List ArgSlot) :
    e.Stays R (e.extractArguments callEa numArgs pushes argTypes tried slots) := by
  induction slots generalizing tried with
  | nil => exact session_pure _
  | cons slot rest ih =>
      refine (resolveSlot_stays heads region each member slot collected).bind fun raw _ => ?_
      refine (fallBack_stays callEa numArgs slot raw tried).bind fun found _ => ?_
      exact (ih found.2.2).bind fun later _ => session_pure _

/-- A call site stays in the region of its address. -/
theorem extractOneCall_stays {callEa : Nat} (member : callEa ∈ R) (funcEa : Nat)
    (convention : CallingConvention) (numArgs : Nat) (argTypes : ArgTypes)
    (pushed : ∀ slots, convention.slots numArgs e.port = .ok slots →
      slots.any (·.kind = .stackPush) → PushesIn e.port.toIdaPort R callEa) :
    e.Stays R (e.extractOneCall callEa funcEa convention numArgs argTypes) := by
  unfold ParamExtractor.extractOneCall
  cases declared : convention.slots numArgs e.port with
  | error message => exact session_pure _
  | ok slots =>
      have collects : e.Stays R (e.pushesFor callEa slots) (∀ x ∈ ·, x ∈ R) := by
        unfold ParamExtractor.pushesFor
        split
        · rename_i needed
          exact lift_stays (@collectPushSequence_stays R e.resolver heads callEa member
            (pushed slots declared needed))
        · exact .pure (List.forall_mem_nil _)
      refine collects.bind fun pushes collected => ?_
      exact (extractArguments_stays heads region each member numArgs collected argTypes none
        slots).bind fun _ _ => session_pure _

end Sites

/-! ## A session beside a new one -/

/-- Tables that are right in the region, beside tables that are right everywhere, under the same
budget. -/
structure Alongside (e : ParamExtractor) (stale starts graphs : Set Nat) (s s' : SessionState) :
    Prop where
  coherent : s.CoherentOff e stale starts graphs
  valid : s'.Valid e
  budget : s.budget = s'.budget

/-- What an operation leaves of the budget depends on the budget alone. -/
theorem sessionHandler_budget (o : SessionOp) (same : s.budget = s'.budget) :
    (e.sessionHandler o s).2.budget = (e.sessionHandler o s').2.budget := by
  cases o with
  | renew => rfl
  | codeRefsTo ea => exact same
  | resolveCallArgs callEa numArgs => exact same
  | resolver o =>
      cases o with
      | step => exact congrArg (·.step.2) same
      | stepBlock => exact congrArg (·.stepBlock.2) same
      | get ea => exact same
      | funcEaFor ea => exact same
      | cfgFor funcEa => exact same
      | mark m => exact same

theorem Alongside.next (along : Alongside e stale starts graphs s s') (o : SessionOp) :
    Alongside e stale starts graphs (e.sessionHandler o s).2 (e.sessionHandler o s').2 where
  coherent := along.coherent.handler o s
  valid := (sessionHandler_mimics e o s' s'.budget ⟨along.valid, rfl⟩).2.1
  budget := sessionHandler_budget o along.budget

/-- The region is one in which nothing is stale, no function start moved and no graph of its
functions changed. -/
structure QuietRegion (port : IdaPort) (stale starts graphs R : Set Nat) : Prop where
  fresh : ∀ ea ∈ R, ea ∉ stale
  starts : ∀ ea ∈ R, ea ∉ starts
  graphs : ∀ f ∈ ownersOf port R, f ∉ graphs

/-- Within a quiet region both sessions answer alike. -/
theorem Alongside.agree (quiet : QuietRegion e.port.toIdaPort stale starts graphs R)
    (o : SessionOp) (s s' : SessionState) (inside : SessionOp.LooksIn e.port R o)
    (along : Alongside e stale starts graphs s s') :
    (e.sessionHandler o s).1 = (e.sessionHandler o s').1 ∧
      SessionOp.Honest e.port o (e.sessionHandler o s').1 ∧
      Alongside e stale starts graphs (e.sessionHandler o s).2 (e.sessionHandler o s').2 := by
  have right := (sessionHandler_mimics e o s' s'.budget ⟨along.valid, rfl⟩).1
  refine ⟨?_, ?_, along.next o⟩
  · cases o with
    | renew => rfl
    | codeRefsTo ea => exact inside.elim
    | resolveCallArgs callEa numArgs => rfl
    | resolver o =>
        cases o with
        | step => exact congrArg (·.step.1) along.budget
        | stepBlock => exact congrArg (·.stepBlock.1) along.budget
        | get ea =>
            exact ((LruCache.fetch_off along.coherent.insnCache ea).2
              (quiet.fresh ea inside)).trans right.symm
        | funcEaFor ea =>
            exact ((Table.fetch_off along.coherent.funcCache ea).2
              (quiet.starts ea inside)).trans right.symm
        | cfgFor funcEa =>
            exact ((Table.fetch_off along.coherent.cfgCache funcEa).2
              (quiet.graphs funcEa inside)).trans right.symm
        | mark m => rfl
  · rw [right]
    cases o with
    | renew => trivial
    | codeRefsTo ea => trivial
    | resolveCallArgs callEa numArgs => trivial
    | resolver o => cases o <;> trivial

/-- A program that stays in the region runs alike in both sessions, wherever an exception ends
it. -/
theorem Alongside.attempt (quiet : QuietRegion e.port.toIdaPort stale starts graphs R)
    {α : Type} {p : Prog Session α} {good : α → Prop} (stays : e.Stays R p good)
    (limit : Option Nat) (along : Alongside e stale starts graphs s s') :
    (Prog.attempt e.sessionHandler limit p s).1 = (Prog.attempt e.sessionHandler limit p s').1 ∧
      Alongside e stale starts graphs (Prog.attempt e.sessionHandler limit p s).2
        (Prog.attempt e.sessionHandler limit p s').2 :=
  stays.attempt (agree quiet) limit along

/-! ## Functions of a database -/

section Database

open IdaPortImpl

variable {api : IdaApi} (f : DatabaseFunction api)

/-- The addresses of the blocks of the flow chart. -/
def DatabaseFunction.addresses : Set Nat := {ea | ∃ b ∈ f.chart, b.startEa ≤ ea ∧ ea < b.endEa}

/-- The resolver does not leave a function of the database. -/
theorem DatabaseFunction.region : Region (port api).toIdaPort f.addresses := by
  have owned : ∀ ea ∈ f.addresses, (port api).getFuncStart ea = some f.func.startEa := by
    intro ea inside
    rcases inside with ⟨b, member, after, before⟩
    change safe none ((api.getFunc ea).map _) = _
    rw [f.owner b member ea after before]
    rfl
  refine ⟨fun ea inside start found block listed x after before => ?_,
    fun ea inside start found unused => ?_⟩
  · obtain rfl := Option.some.inj ((owned ea inside).symm.trans found)
    rcases f.mem_blocks listed with ⟨b, member, rfl⟩
    exact ⟨b, member, after, before⟩
  · obtain rfl := Option.some.inj ((owned ea inside).symm.trans found)
    rcases inside with ⟨b, member, after, before⟩
    have listed : blockInfo b ∈ (buildCfg (port api).toIdaPort f.func.startEa).blocks := by
      rw [f.blocks_eq]
      exact List.mem_map_of_mem member
    have nonempty : (buildCfg (port api).toIdaPort f.func.startEa).isEmpty = false := by
      simpa [CfgModel.isEmpty] using List.ne_nil_of_mem listed
    rw [BackwardResolver.useBlock, nonempty] at unused
    have missing := List.find?_eq_none.mp unused _ listed
    simp only [decide_eq_true_eq] at missing
    exact (missing ⟨after, before⟩).elim

include f in
theorem DatabaseFunction.placedHeads
    (placed : ∀ ea insn, api.decodeInsn ea = some (some insn) → insn.ea = ea) :
    PlacedHeads (port api).toIdaPort where
  within ea minEa x found := by
    rcases f.closest ea minEa with ⟨head, asked, closest⟩
    have same : (port api).prevHead ea minEa = head := by
      change safe none (api.prevHead ea minEa) = head
      rw [asked]
      rfl
    rw [same] at found
    subst found
    cases closest with
    | found low below _ _ => exact ⟨low, below⟩
  placed ea i found := by
    change safe none ((api.decodeInsn ea).map _) = some i at found
    cases decoded : api.decodeInsn ea with
    | none =>
        rw [decoded] at found
        cases found
    | some answer =>
        rw [decoded] at found
        rcases Option.map_eq_some_iff.mp found with ⟨insn, rfl, rfl⟩
        exact placed ea insn decoded

end Database

/-! ## Requests -/

/-- The addresses from which a request looks at the database are in the region, and the references
that it looks up are not stale. -/
def Request.Within (e : ParamExtractor) (stale R : Set Nat) : Request → Prop
  | extractCalls funcEa convention numArgs _ _ => funcEa ∉ stale ∧
      ∀ callEa ∈ e.port.codeRefsTo funcEa, callEa ∈ R ∧
        ∀ c n slots, e.resolveConvention funcEa convention numArgs = .ok (c, n) →
          c.slots n e.port = .ok slots → slots.any (·.kind = .stackPush) →
            PushesIn e.port.toIdaPort R callEa
  | query (.resolve q) => q.ea ∈ R
  | query (.collectPushSequence callEa) => callEa ∈ R ∧ PushesIn e.port.toIdaPort R callEa
  | _ => True

/-- With less that is stale a request stays within the region. -/
theorem Request.Within.mono {stale' : Set Nat} (fewer : stale' ⊆ stale) {request : Request}
    (within : request.Within e stale R) : request.Within e stale' R := by
  cases request with
  | extractCalls funcEa convention numArgs argTypes raisesAfter =>
      exact ⟨fun old => within.1 (fewer old), within.2⟩
  | query q => cases q <;> exact within
  | raisingQuery q calls => trivial
  | resolveArgumentAt fetched => trivial
  | invalidate ea => trivial

theorem OpenSession.staleAfter_subset (stale : Set Nat) (request : Request) :
    staleAfter stale request ⊆ stale := by
  cases request with
  | extractCalls funcEa convention numArgs argTypes raisesAfter => exact Set.Subset.refl _
  | query q => exact Set.Subset.refl _
  | raisingQuery q calls => exact Set.Subset.refl _
  | resolveArgumentAt fetched => exact Set.Subset.refl _
  | invalidate ea =>
      cases ea with
      | none => exact Set.empty_subset _
      | some ea => exact Set.sdiff_subset

theorem extractCallSites_alongside (quiet : QuietRegion e.port.toIdaPort stale starts graphs R)
    (funcEa : Nat) (convention : CallingConvention) (numArgs : Nat) (argTypes : ArgTypes)
    (raisesAfter : Nat → Option Nat) {refs : List Nat}
    (sites : ∀ callEa ∈ refs,
      e.Stays R (e.extractOneCall callEa funcEa convention numArgs argTypes))
    (along : Alongside e stale starts graphs s s') :
    (e.extractCallSites funcEa convention numArgs argTypes raisesAfter refs s).1 =
      (e.extractCallSites funcEa convention numArgs argTypes raisesAfter refs s').1 := by
  induction refs generalizing s s' with
  | nil => rfl
  | cons callEa rest ih =>
      rcases List.forall_mem_cons.mp sites with ⟨first, later⟩
      have ran := along.attempt quiet first (raisesAfter callEa)
      have tail := ih later ran.2
      simp only [ParamExtractor.extractCallSites, ParamExtractor.extractOneCallSafe]
      rw [ran.1, tail]

section Responses

variable (heads : PlacedHeads e.port.toIdaPort) (region : Region e.port.toIdaPort R)
variable (each : ∀ l ∈ e.registry.all, l.Local)
variable (quiet : QuietRegion e.port.toIdaPort stale starts graphs R)

include heads region each quiet

/-- A request within a quiet region is answered as by a new extractor. -/
theorem respond_within (coherent : s.CoherentOff e stale starts graphs) {request : Request}
    (within : request.Within e stale R) (budgeted : request.Budgeted s) :
    (e.respond request s).1 = e.freshResponse request := by
  -- a session with empty tables, and the budget that this one has at hand
  let s' : SessionState := { e.new with budget := s.budget }
  have valid : s'.Valid e :=
    { e.new_valid with maxSteps := coherent.maxSteps, maxBlocks := coherent.maxBlocks }
  have along : Alongside e stale starts graphs s s' := ⟨coherent, valid, rfl⟩
  have budgeted' : request.Budgeted s' := by
    cases request with
    | query q => cases q <;> exact budgeted
    | _ => trivial
  rw [← respond_fresh request valid budgeted']
  cases request with
  | extractCalls funcEa convention numArgs argTypes raisesAfter =>
      simp only [ParamExtractor.respond, ParamExtractor.extractCalls]
      cases chosen : e.resolveConvention funcEa convention numArgs with
      | error message => rfl
      | ok found =>
          rcases found with ⟨c, n⟩
          have refs : (e.sessionHandler (.codeRefsTo funcEa) s).1 = e.port.codeRefsTo funcEa :=
            (LruCache.fetch_off coherent.xrefCache funcEa).2 within.1
          have refs' := (codeRefsTo_valid valid funcEa).1
          have sites : ∀ callEa ∈ (e.port.codeRefsTo funcEa).insertionSort (· ≤ ·),
              e.Stays R (e.extractOneCall callEa funcEa c n argTypes) := by
            intro callEa member
            have inside := within.2 callEa ((List.mem_insertionSort _).mp member)
            exact extractOneCall_stays heads region each inside.1 funcEa c n argTypes
              fun slots declared => inside.2 c n slots chosen declared
          have same := extractCallSites_alongside quiet funcEa c n argTypes raisesAfter sites
            (along.next (.codeRefsTo funcEa))
          simp only [refs, refs', same]
  | query q =>
      have stays : e.Stays R (q.program e) := by
        cases q with
        | resolve q =>
            have inner := @program_stays e.resolver R heads region each e.resolver.fuel q within
            exact (fresh_stays inner).bind fun v _ => session_pure _
        | dereference addr size =>
            exact (lift_stays (@dereference_stays e.resolver R addr size)).bind fun v _ =>
              session_pure _
        | collectPushSequence callEa =>
            exact (lift_stays (@collectPushSequence_stays R e.resolver heads callEa within.1
              within.2)).bind fun pushes _ => session_pure _
      exact congrArg Response.reply (along.attempt quiet stays none).1
  | raisingQuery q calls => rfl
  | resolveArgumentAt fetched => rfl
  | invalidate ea => rfl

/-- Requests within a quiet region are answered as by a new extractor. -/
theorem responses_within (later : List Request)
    (coherent : s.CoherentOff e stale starts graphs)
    (within : ∀ request ∈ later, request.Within e stale R)
    (budgeted : e.AllRequestsBudgeted later s) :
    e.responses later s = later.map e.freshResponse := by
  induction later generalizing s stale with
  | nil => rfl
  | cons request rest ih =>
      rcases List.forall_mem_cons.mp within with ⟨first, others⟩
      have fewer := OpenSession.staleAfter_subset stale request
      have quiet' : QuietRegion e.port.toIdaPort (OpenSession.staleAfter stale request) starts
          graphs R := { quiet with fresh := fun ea member old => quiet.fresh ea member (fewer old) }
      rw [ParamExtractor.responses, List.map_cons,
        respond_within heads region each quiet coherent first budgeted.1,
        ih quiet' (coherent.respond request) (fun r member => (others r member).mono fewer)
          budgeted.2]

end Responses

/-- What a patch keeps of a region's function starts and graphs, the region needs. -/
theorem Region.kept {first port : FacadePort} (region : Region first.toIdaPort R)
    (kept : first.KeepsOff Rᶜ (ownersOf first.toIdaPort R)ᶜ port) :
    Region port.toIdaPort R ∧ ownersOf port.toIdaPort R = ownersOf first.toIdaPort R := by
  have starts : ∀ ea ∈ R, port.getFuncStart ea = first.getFuncStart ea :=
    fun ea member => kept.start ea fun out => out member
  have graphs : ∀ ea ∈ R, ∀ f, port.getFuncStart ea = some f →
      first.getFuncStart ea = some f ∧
        buildCfg port.toIdaPort f = buildCfg first.toIdaPort f := by
    intro ea member f owned
    rw [starts ea member] at owned
    exact ⟨owned, kept.graph f fun out => out ⟨ea, member, owned⟩⟩
  refine ⟨⟨fun ea member f owned => ?_, fun ea member f owned => ?_⟩, Set.ext fun f => ?_⟩
  · rw [(graphs ea member f owned).2]
    exact region.block ea member f (graphs ea member f owned).1
  · rw [(graphs ea member f owned).2]
    exact region.linear ea member f (graphs ea member f owned).1
  · constructor
    · intro given
      rcases given with ⟨ea, member, owned⟩
      exact ⟨ea, member, (graphs ea member f owned).1⟩
    · intro given
      rcases given with ⟨ea, member, owned⟩
      exact ⟨ea, member, (starts ea member).trans owned⟩

/-- A run does not change the locators. -/
theorem OpenSession.registry_run (w : OpenSession) (events : List SessionEvent) :
    (w.run events).extractor.registry = w.extractor.registry := by
  induction events generalizing w with
  | nil => rfl
  | cons event rest ih =>
      refine (ih (w.next event)).trans ?_
      cases event <;> rfl

/-- A region that no patch changed and where nothing is stale is quiet after the run, and still a
region. -/
theorem Region.quiet_after {R : Set Nat} (region : Region e.port.toIdaPort R)
    {events : List SessionEvent} (kept : ∀ event ∈ events,
      event.KeepsOff e.port Rᶜ (ownersOf e.port.toIdaPort R)ᶜ) {w : OpenSession}
    (ran : (OpenSession.start e).run events = w) (fresh : ∀ ea ∈ R, ea ∉ w.stale) :
    w.Coherent e.port Rᶜ (ownersOf e.port.toIdaPort R)ᶜ ∧ Region w.extractor.port.toIdaPort R ∧
      QuietRegion w.extractor.port.toIdaPort w.stale Rᶜ (ownersOf e.port.toIdaPort R)ᶜ R := by
  subst ran
  have coherent := (OpenSession.coherent_start e _ _).run events kept
  rcases region.kept coherent.kept with ⟨region', owners⟩
  exact ⟨coherent, region', fresh, fun ea member out => out member,
    fun f member out => out (owners ▸ member)⟩

/-- The locators stay local. -/
theorem OpenSession.local_after (each : ∀ l ∈ e.registry.all, l.Local)
    {events : List SessionEvent} {w : OpenSession} (ran : (OpenSession.start e).run events = w) :
    ∀ l ∈ w.extractor.registry.all, l.Local := by
  subst ran
  rw [OpenSession.registry_run]
  exact each

/-- After any run in which the database was patched at any time, requests within a region are
answered as by a new extractor on the database as it is now, if no address of the region is stale
and no patch changed a function start or a graph of it. What was patched elsewhere, and never
invalidated, does not matter. -/
theorem region_coherent (e : ParamExtractor) (each : ∀ l ∈ e.registry.all, l.Local)
    (events : List SessionEvent) {w : OpenSession} (ran : (OpenSession.start e).run events = w)
    {R : Set Nat} (region : Region e.port.toIdaPort R)
    (kept : ∀ event ∈ events,
      event.KeepsOff e.port Rᶜ (ownersOf e.port.toIdaPort R)ᶜ)
    (heads : PlacedHeads w.extractor.port.toIdaPort) (fresh : ∀ ea ∈ R, ea ∉ w.stale)
    (later : List Request) (within : ∀ request ∈ later, request.Within w.extractor w.stale R)
    (budgeted : w.extractor.AllRequestsBudgeted later w.state) :
    w.extractor.responses later w.state = later.map w.extractor.freshResponse := by
  rcases region.quiet_after kept ran fresh with ⟨coherent, region', quiet⟩
  exact responses_within heads region' (OpenSession.local_after each ran) quiet later
    coherent.tables within budgeted

/-- Through the adapter: a function of the database is such a region, so what is asked about it
is answered as by a new extractor, whatever was patched in other functions. -/
theorem DatabaseFunction.responses_coherent {before now : IdaApi}
    (f : DatabaseFunction before) (g : DatabaseFunction now)
    (placed : ∀ ea insn, now.decodeInsn ea = some (some insn) → insn.ea = ea)
    (e : ParamExtractor) (each : ∀ l ∈ e.registry.all, l.Local)
    (adapter : e.port.toIdaPort = (IdaPortImpl.port before).toIdaPort)
    (events : List SessionEvent) {w : OpenSession} (ran : (OpenSession.start e).run events = w)
    (adapter' : w.extractor.port.toIdaPort = (IdaPortImpl.port now).toIdaPort)
    (kept : ∀ event ∈ events,
      event.KeepsOff e.port f.addressesᶜ (ownersOf e.port.toIdaPort f.addresses)ᶜ)
    (fresh : ∀ ea ∈ f.addresses, ea ∉ w.stale) (later : List Request)
    (within : ∀ request ∈ later, request.Within w.extractor w.stale f.addresses)
    (budgeted : w.extractor.AllRequestsBudgeted later w.state) :
    w.extractor.responses later w.state = later.map w.extractor.freshResponse := by
  have region : Region e.port.toIdaPort f.addresses := adapter ▸ f.region
  have heads : PlacedHeads w.extractor.port.toIdaPort := adapter' ▸ g.placedHeads placed
  rcases region.quiet_after kept ran fresh with ⟨coherent, region', quiet⟩
  exact responses_within heads region' (OpenSession.local_after each ran) quiet later
    coherent.tables within budgeted

/-! ### A caller that is patched, and a callee that is stale -/

namespace Callee

open FakeIdaPort

def setEcx (value : Int) : Instruction :=
  FakeIdaPort.insn 0x402000 "mov" 5 [FakeIdaPort.reg 0 1, FakeIdaPort.imm 1 value]

def fake : FakeIdaPort where
  pointerSize := 4
  instructions := [FakeIdaPort.insn 0x401000 "nop" 1 [], FakeIdaPort.insn 0x401001 "ret" 1 [],
    setEcx 5, FakeIdaPort.jump 0x402005 "call" 5 0x401000]
  funcBounds := [(0x401000, 0x401002), (0x402000, 0x40200a)]
  blocks := [(0x401000, [⟨0x401000, 0x401002, [], []⟩]),
    (0x402000, [⟨0x402000, 0x40200a, [], []⟩])]

/-- Another constant in the caller, and a callee without its last instruction. -/
def patched : FacadePort :=
  { fake.toFacadePort with
    decodeAt := fun ea =>
      if ea = 0x402000 then some (setEcx 7)
      else if ea = 0x401001 then none
      else fake.decodeAt ea }

/-- With the complement registered. -/
def extractor : ParamExtractor where
  port := fake.toFacadePort
  registry := registerExample defaultRegistry

def question : Request :=
  .extractCalls 0x401000 (some (.template fastcall)) (some 1) [] fun _ => none

/-- The caller is invalidated, the callee is not. -/
def events : List SessionEvent :=
  [.request question, .patch patched none, .request (.invalidate (some 0x402000))]

def argument : ArgumentResult where
  index := 0
  rawValue := .concrete (.int 7) .int
  processedValue := .concrete (.int 7) .int

/-- The addresses of the caller. -/
def caller : Set Nat := {ea | 0x402000 ≤ ea ∧ ea < 0x40200a}

end Callee

open Callee in
theorem region_coherent_callee :
    ((OpenSession.start extractor).run events).extractor.responses [question]
        ((OpenSession.start extractor).run events).state =
      [.report (.ok ⟨0x401000, [⟨0x402005, 0x401000, [argument]⟩]⟩)] := by
  have owner : ∀ ea ∈ caller, extractor.port.getFuncStart ea = some 0x402000 := by
    intro ea member
    rcases member with ⟨low, high⟩
    have other : ¬ (0x401000 ≤ ea ∧ ea < 0x401002) := by omega
    change (fake.funcBounds.find? fun bounds => bounds.1 ≤ ea ∧ ea < bounds.2).map (·.1) = _
    simp [fake, other, low, high]
  have region : Region extractor.port.toIdaPort caller := by
    constructor
    · intro ea member f owned block listed x after before
      obtain rfl := Option.some.inj ((owner ea member).symm.trans owned)
      rw [List.mem_singleton.mp listed] at after before
      exact ⟨after, before⟩
    · intro ea member f owned unused
      obtain rfl := Option.some.inj ((owner ea member).symm.trans owned)
      have inside : 0x402000 ≤ ea ∧ ea < 0x40200a := member
      have graph : buildCfg extractor.port.toIdaPort 0x402000 =
        ⟨0x402000, [⟨0x402000, 0x40200a, [], []⟩]⟩ := rfl
      rw [graph] at unused
      simp [BackwardResolver.useBlock, CfgModel.isEmpty, CfgModel.blockContaining, inside] at unused
  have kept : ∀ event ∈ events, event.KeepsOff extractor.port callerᶜ
      (ownersOf extractor.port.toIdaPort caller)ᶜ := by
    intro event member
    simp only [events, List.mem_cons, List.not_mem_nil, or_false] at member
    rcases member with rfl | rfl | rfl
    · trivial
    · exact ⟨fun _ _ => rfl, fun _ _ => rfl⟩
    · trivial
  have heads : PlacedHeads patched.toIdaPort := by
    refine ⟨fake.placedHeads.within, fun ea i decoded => ?_⟩
    simp only [patched] at decoded
    split at decoded
    · rename_i here
      rw [here, ← Option.some.inj decoded]
      rfl
    · split at decoded
      · cases decoded
      · exact fake.placedHeads.placed ea i decoded
  have fresh : ∀ ea, ea ≠ 0x401001 → ea ∉ ((OpenSession.start extractor).run events).stale := by
    intro ea second old
    rcases old with ⟨older | changed, other⟩
    · exact older
    · have first : ea ≠ 0x402000 := other
      rcases changed with insn | refs
      · apply insn
        simp only [patched, if_neg first, if_neg second]
        rfl
      · exact refs rfl
  have each : ∀ l ∈ extractor.registry.all, l.Local :=
    LocatorRegistry.register_local 0 builtins_local notLocator_local
  have within : question.Within (extractor.moved patched none)
      ((OpenSession.start extractor).run events).stale caller := by
    refine ⟨fresh 0x401000 (by decide), fun callEa listed => ?_⟩
    obtain rfl : callEa = 0x402005 := List.mem_singleton.mp listed
    refine ⟨⟨by decide, by decide⟩, fun c n slots chosen declared pushes => ?_⟩
    obtain ⟨rfl, rfl⟩ := Prod.mk.inj (Except.ok.inj chosen)
    obtain rfl := Except.ok.inj declared
    cases pushes
  refine (region_coherent extractor each events rfl region kept heads
    (fun ea member => fresh ea fun callee => ?_) [question] ?_ ⟨trivial, trivial⟩).trans
      (by decide +kernel)
  · have low : 0x402000 ≤ ea := member.1
    omega
  · exact List.forall_mem_singleton.mpr within

end IDAnalysister
