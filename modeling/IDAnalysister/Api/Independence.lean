import IDAnalysister.Api.Facade
import IDAnalysister.Backward.Walk

/-!
# Call sites and arguments are independent

From any valid state a slot of a call site resolves to the value that a fresh resolver
gives it (`resolveSlot_served`), because every query the facade makes starts from a new
budget and the push sequence needs none. Requests of any kind, also ones that raise, leave
a valid state, so this holds after any history (`extractCalls_independent`).
-/

namespace IDAnalysister

open Effect Prog Memo

variable {e : ParamExtractor} {s s' : SessionState}

/-! ## Steady programs -/

/-- A program that answers alike from every valid state, whatever its budget. -/
def Steady (e : ParamExtractor) {α : Type} (p : Prog Session α) : Prop :=
  ∀ s s', s.Valid e → s'.Valid e →
    (attempt e.sessionHandler none p s).1 = (attempt e.sessionHandler none p s').1

namespace Steady

variable {α β : Type}

theorem pure (a : α) : Steady e (.pure a) := fun _ _ _ _ => rfl

/-- Steady programs compose. -/
theorem bind {p : Prog Session α} {f : α → Prog Session β} (first : Steady e p)
    (second : ∀ a, Steady e (f a)) : Steady e (p.bind f) := by
  intro s s' valid valid'
  have same := first s s' valid valid'
  have next := attempt_valid p none valid
  have next' := attempt_valid p none valid'
  rw [attempt_bind_eq, attempt_bind_eq]
  generalize attempt e.sessionHandler none p s = r at same next ⊢
  generalize attempt e.sessionHandler none p s' = r' at same next' ⊢
  rcases r with ⟨a, s₁⟩
  rcases r' with ⟨a', s₁'⟩
  cases same
  cases a with
  | none => rfl
  | some a => exact second a s₁ s₁' next next'

/-- A query with a fresh budget is steady. -/
theorem fresh (q : Query α) : Steady e (Session.fresh q) := by
  intro s s' valid valid'
  have renewed : ∀ {s : SessionState}, s.Valid e →
      ({ s with budget := e.resolver.freshBudget } : SessionState).Valid e :=
    fun valid => { valid with maxSteps := rfl, maxBlocks := rfl }
  exact attempt_congr (Session.lift q) none (renewed valid) (renewed valid') rfl

/-- Collecting pushes is steady. -/
theorem collectPushSequence (callEa : Nat) :
    Steady e (Session.lift (e.resolver.collectPushSequence callEa)) := by
  intro s s' valid valid'
  rcases collectPushSequence_returns e.resolver callEa with ⟨pushes, ran⟩
  rcases query_served valid (ran s.budget) with ⟨s₁, served, -⟩
  rcases query_served valid' (ran s'.budget) with ⟨s₁', served', -⟩
  rw [served, served']

/-- Asking the decompiler is steady. -/
theorem hexraysArgs (callEa numArgs : Nat) (tried : Option (Option CallArgs)) :
    Steady e (ParamExtractor.hexraysArgs callEa numArgs tried) := by
  cases tried with
  | none => exact fun _ _ _ _ => rfl
  | some answer => exact pure answer

/-- Resolving a slot is steady. -/
theorem resolveSlot (callEa : Nat) (slot : ArgSlot) (pushes : List Nat) :
    Steady e (e.resolveSlot callEa slot pushes) := by
  unfold ParamExtractor.resolveSlot
  split
  · split
    · exact pure _
    · exact fresh _
  · split
    · split
      · exact pure _
      · exact fresh _
    · split
      · exact pure _
      · exact fresh _

/-- Falling back is steady. -/
theorem fallBack (callEa numArgs : Nat) (slot : ArgSlot) (raw : ValueLattice)
    (tried : Option (Option CallArgs)) :
    Steady e (e.fallBack callEa numArgs slot raw tried) := by
  unfold ParamExtractor.fallBack
  split
  · exact pure _
  · refine bind (hexraysArgs callEa numArgs tried) fun answer => ?_
    split <;> exact pure _

/-- The loop over the slots is steady. -/
theorem extractArguments (callEa numArgs : Nat) (pushes : List Nat) (argTypes : ArgTypes)
    (tried : Option (Option CallArgs)) (slots : List ArgSlot) :
    Steady e (e.extractArguments callEa numArgs pushes argTypes tried slots) := by
  induction slots generalizing tried with
  | nil => exact pure []
  | cons slot rest ih =>
      refine bind (resolveSlot callEa slot pushes) fun raw => ?_
      refine bind (fallBack callEa numArgs slot raw tried) fun found => ?_
      exact bind (ih found.2.2) fun later => pure _

theorem pushesFor (callEa : Nat) (slots : List ArgSlot) : Steady e (e.pushesFor callEa slots) := by
  unfold ParamExtractor.pushesFor
  split
  · exact collectPushSequence callEa
  · exact pure []

/-- A whole call site is steady. -/
theorem extractOneCall (callEa funcEa : Nat) (convention : CallingConvention) (numArgs : Nat)
    (argTypes : ArgTypes) :
    Steady e (e.extractOneCall callEa funcEa convention numArgs argTypes) := by
  unfold ParamExtractor.extractOneCall
  cases convention.slots numArgs e.port with
  | error message => exact pure _
  | ok slots =>
      refine bind (pushesFor callEa slots) fun pushes => ?_
      exact bind (extractArguments callEa numArgs pushes argTypes none slots) fun _ => pure _

end Steady

/-! ## Requests leave a valid state -/

/-- Dropping cached instructions leaves the session valid. -/
theorem invalidate_valid (valid : s.Valid e) (ea : Option Nat) :
    ({ s with cache := s.cache.invalidate ea } : SessionState).Valid e := by
  cases ea with
  | none => exact { valid with insnCache := faithful_nil _, xrefCache := faithful_nil _ }
  | some ea =>
      refine { valid with insnCache := ?_, xrefCache := ?_ }
      · exact fun entry member => valid.insnCache entry (List.mem_filter.mp member).1
      · exact fun entry member => valid.xrefCache entry (List.mem_filter.mp member).1

/-- Looking up references leaves the session valid. -/
theorem codeRefsTo_valid (valid : s.Valid e) (funcEa : Nat) :
    (e.sessionHandler (.codeRefsTo funcEa) s).1 = e.port.codeRefsTo funcEa ∧
      (e.sessionHandler (.codeRefsTo funcEa) s).2.Valid e := by
  have answered := sessionHandler_mimics e (.codeRefsTo funcEa) s s.budget ⟨valid, rfl⟩
  exact ⟨answered.1, answered.2.1⟩

/-- A guarded call site leaves the session valid, wherever it raises. -/
theorem extractOneCallSafe_valid (callEa funcEa : Nat) (convention : CallingConvention)
    (numArgs : Nat) (argTypes : ArgTypes) (raises : Option Nat) (valid : s.Valid e) :
    (e.extractOneCallSafe callEa funcEa convention numArgs argTypes raises s).2.Valid e :=
  attempt_valid (e.extractOneCall callEa funcEa convention numArgs argTypes) raises valid

/-- So do all call sites of a report. -/
theorem extractCallSites_valid (funcEa : Nat) (convention : CallingConvention) (numArgs : Nat)
    (argTypes : ArgTypes) (raisesAfter : Nat → Option Nat) (refs : List Nat)
    (valid : s.Valid e) :
    (e.extractCallSites funcEa convention numArgs argTypes raisesAfter refs s).2.Valid e := by
  induction refs generalizing s with
  | nil => exact valid
  | cons callEa rest ih =>
      exact ih (extractOneCallSafe_valid callEa funcEa convention numArgs argTypes
        (raisesAfter callEa) valid)

/-- A request leaves the session valid. -/
theorem respond_valid (request : Request) (valid : s.Valid e) :
    (e.respond request s).2.Valid e := by
  cases request with
  | extractCalls funcEa convention numArgs argTypes raisesAfter =>
      simp only [ParamExtractor.respond, ParamExtractor.extractCalls]
      split
      · exact valid
      · exact extractCallSites_valid _ _ _ _ _ _ (codeRefsTo_valid valid funcEa).2
  | query q => exact serve_valid q valid
  | raisingQuery q calls => exact attempt_valid (q.program e) (some calls) valid
  | resolveArgumentAt fetched => exact attempt_valid _ none valid
  | invalidate ea => exact invalidate_valid valid ea

/-- Any history of requests leaves the session valid. -/
theorem after_valid (history : List Request) (valid : s.Valid e) :
    (e.after history s).Valid e := by
  induction history generalizing s with
  | nil => exact valid
  | cons request rest ih => exact ih (respond_valid request valid)

/-! ## What a slot resolves to -/

/-- The program returns `a` from every valid state. -/
def Serves (e : ParamExtractor) {α : Type} (p : Prog Session α) (a : α) : Prop :=
  ∀ s, s.Valid e → ∃ s', attempt e.sessionHandler none p s = (some a, s') ∧ s'.Valid e

theorem Serves.pure {α : Type} (a : α) : Serves e (.pure a) a := fun s valid => ⟨s, rfl, valid⟩

/-- A program serves when both of its parts do. -/
theorem Serves.bind {α β : Type} {p : Prog Session α} {f : α → Prog Session β} {a : α} {b : β}
    (first : Serves e p a) (second : Serves e (f a) b) : Serves e (p.bind f) b := by
  intro s valid
  rcases first s valid with ⟨s₁, served, valid₁⟩
  rcases second s₁ valid₁ with ⟨s₂, served', valid₂⟩
  exact ⟨s₂, (attempt_bind served).trans served', valid₂⟩

/-- A query of the resolver is served, with the same answer in every valid session. -/
theorem serves_query (q : PublicQuery) :
    ∃ v, Serves e (Session.fresh (e.resolver.program e.resolver.fuel q)) v := by
  rcases serve_resolve q e.new_valid with ⟨v, answered, -⟩
  rw [answer_eq] at answered
  exact ⟨v, fun s valid => fresh_served valid answered⟩

/-- The pushes of a call are served alike. -/
theorem serves_collectPushSequence (callEa : Nat) :
    ∃ pushes, Serves e (Session.lift (e.resolver.collectPushSequence callEa)) pushes := by
  rcases collectPushSequence_returns e.resolver callEa with ⟨pushes, ran⟩
  refine ⟨pushes, fun s valid => ?_⟩
  rcases query_served valid (ran s.budget) with ⟨s', served, valid', -⟩
  exact ⟨s', served, valid'⟩

/-- A slot is served alike. -/
theorem serves_resolveSlot (callEa : Nat) (slot : ArgSlot) (pushes : List Nat) :
    ∃ v, Serves e (e.resolveSlot callEa slot pushes) v := by
  unfold ParamExtractor.resolveSlot
  split
  · split
    · exact ⟨_, .pure _⟩
    · exact serves_query _
  · split
    · split
      · exact ⟨_, .pure _⟩
      · exact serves_query _
    · split
      · exact ⟨_, .pure _⟩
      · exact serves_query _

/-- Only a push slot looks at the push sequence. -/
theorem resolveSlot_congr {callEa : Nat} {slot : ArgSlot} {pushes pushes' : List Nat}
    (same : slot.kind = .stackPush → pushes = pushes') :
    e.resolveSlot callEa slot pushes = e.resolveSlot callEa slot pushes' := by
  by_cases kind : slot.kind = .stackPush
  · rw [same kind]
  · simp only [ParamExtractor.resolveSlot, kind, dif_neg, not_false_eq_true]

/-- One slot of one call site, by itself. -/
def ParamExtractor.slotAlone (e : ParamExtractor) (callEa : Nat) (slot : ArgSlot) :
    Prog Session ValueLattice := do
  let pushes ← e.pushesFor callEa [slot]
  e.resolveSlot callEa slot pushes

/-- What a new resolver gives for one slot of one call site. -/
def ParamExtractor.slotValue (e : ParamExtractor) (callEa : Nat) (slot : ArgSlot) :
    Option ValueLattice :=
  (attempt e.sessionHandler none (e.slotAlone callEa slot) e.new).1

/-- Within a site a slot resolves to its value alone. -/
theorem resolveSlot_served (callEa : Nat) (slots : List ArgSlot) :
    ∃ pushes, Serves e (e.pushesFor callEa slots) pushes ∧
      ∀ slot ∈ slots, ∃ v, e.slotValue callEa slot = some v ∧
        Serves e (e.resolveSlot callEa slot pushes) v := by
  rcases serves_collectPushSequence (e := e) callEa with ⟨collected, serves⟩
  have single (slots : List ArgSlot) :
      Serves e (e.pushesFor callEa slots)
        (if slots.any (·.kind = .stackPush) then collected else []) := by
    unfold ParamExtractor.pushesFor
    split
    · exact serves
    · exact .pure []
  refine ⟨_, single slots, fun slot member => ?_⟩
  have needed : slot.kind = .stackPush →
      (if slots.any (·.kind = .stackPush) then collected else []) =
        (if [slot].any (·.kind = .stackPush) then collected else []) := by
    intro kind
    have all : slots.any (·.kind = .stackPush) := by
      simp only [List.any_eq_true, decide_eq_true_eq]
      exact ⟨slot, member, kind⟩
    have one : [slot].any (·.kind = .stackPush) := by simp [kind]
    rw [if_pos all, if_pos one]
  rw [resolveSlot_congr needed]
  rcases serves_resolveSlot (e := e) callEa slot
    (if [slot].any (·.kind = .stackPush) then collected else []) with ⟨v, resolved⟩
  rcases (single [slot]).bind resolved e.new e.new_valid with ⟨s', served, -⟩
  refine ⟨v, ?_, resolved⟩
  simp only [ParamExtractor.slotValue, ParamExtractor.slotAlone, bind_eq, served]

/-! ## A site, and all sites -/

/-- The argument stands for the slot, and without a decompiler holds its value alone. -/
def ArgumentOf (e : ParamExtractor) (callEa : Nat) (slot : ArgSlot) (arg : ArgumentResult) : Prop :=
  arg.index = slot.index ∧ (e.hexrays = none → e.slotValue callEa slot = some arg.rawValue)

/-- The argument stands for the slot and holds its value alone, or a value that the
decompiler gave. -/
structure SlotArgument (e : ParamExtractor) (callEa : Nat) (slot : ArgSlot) (arg : ArgumentResult) :
    Prop where
  index : arg.index = slot.index
  raw : arg.source = .raw → e.slotValue callEa slot = some arg.rawValue
  source : e.hexrays = none → arg.source = .raw

theorem SlotArgument.argumentOf {callEa : Nat} {slot : ArgSlot} {arg : ArgumentResult}
    (stands : SlotArgument e callEa slot arg) : ArgumentOf e callEa slot arg :=
  ⟨stands.index, fun absent => stands.raw (stands.source absent)⟩

/-- So is the decompiler. -/
theorem serves_hexraysArgs (callEa numArgs : Nat) (tried : Option (Option CallArgs)) :
    ∃ answer, Serves e (ParamExtractor.hexraysArgs callEa numArgs tried) answer := by
  cases tried with
  | none =>
      refine ⟨e.hexrays.bind fun backend => backend callEa numArgs, fun s valid => ⟨s, ?_, valid⟩⟩
      rfl
  | some answer => exact ⟨answer, .pure answer⟩

/-- So is the choice between the raw value and the decompiler's. -/
theorem serves_fallBack (callEa numArgs : Nat) (slot : ArgSlot) (raw : ValueLattice)
    (tried : Option (Option CallArgs)) :
    ∃ found, Serves e (e.fallBack callEa numArgs slot raw tried) found ∧
      (found.2.1 = .raw → found.1 = raw) ∧ (e.hexrays = none → found.2.1 = .raw) := by
  unfold ParamExtractor.fallBack
  split
  · exact ⟨_, .pure _, fun _ => rfl, fun _ => rfl⟩
  · rename_i present
    have some' : e.hexrays ≠ none := fun absent => present (Or.inr (by simp [absent]))
    rcases serves_hexraysArgs (e := e) callEa numArgs tried with ⟨answer, served⟩
    cases entry : (answer.bind fun args => args.lookup slot.index).filter (·.isKnown) with
    | none =>
        refine ⟨(raw, .raw, some answer), served.bind ?_, fun _ => rfl, fun _ => rfl⟩
        rw [entry]
        exact .pure _
    | some value =>
        refine ⟨(value, .hexraysFallback, some answer), served.bind ?_,
          fun walked => (by cases walked), fun absent => (some' absent).elim⟩
        rw [entry]
        exact .pure _

/-- The loop over the slots is served alike when each slot is. -/
theorem serves_extractArguments (callEa numArgs : Nat) (pushes : List Nat) (argTypes : ArgTypes)
    (tried : Option (Option CallArgs)) (slots : List ArgSlot)
    (each : ∀ slot ∈ slots, ∃ v, e.slotValue callEa slot = some v ∧
      Serves e (e.resolveSlot callEa slot pushes) v) :
    ∃ args, Serves e (e.extractArguments callEa numArgs pushes argTypes tried slots) args ∧
      List.Forall₂ (SlotArgument e callEa) slots args := by
  induction slots generalizing tried with
  | nil => exact ⟨[], .pure [], .nil⟩
  | cons slot rest ih =>
      rcases each slot List.mem_cons_self with ⟨raw, alone, resolved⟩
      rcases serves_fallBack (e := e) callEa numArgs slot raw tried with
        ⟨found, fell, kept, source⟩
      rcases ih found.2.2 fun slot member => each slot (List.mem_cons_of_mem _ member) with
        ⟨later, served, matched⟩
      refine ⟨_, resolved.bind (fell.bind (served.bind (.pure _))), .cons
        ⟨rfl, fun walked => ?_, source⟩ matched⟩
      rw [alone, ← kept walked]
      rfl

/-- A site that raises nothing returns the arguments of its slots. -/
theorem serves_extractOneCall (callEa funcEa : Nat) {convention : CallingConvention}
    {numArgs : Nat} {slots : List ArgSlot} (argTypes : ArgTypes)
    (declared : convention.slots numArgs e.port = .ok slots) :
    ∃ args, Serves e (e.extractOneCall callEa funcEa convention numArgs argTypes)
        (.ok { callEa, funcEa, arguments := args }) ∧
      List.Forall₂ (SlotArgument e callEa) slots args := by
  rcases resolveSlot_served (e := e) callEa slots with ⟨pushes, collected, each⟩
  rcases serves_extractArguments callEa numArgs pushes argTypes none slots each with
    ⟨args, served, matched⟩
  refine ⟨args, ?_, matched⟩
  unfold ParamExtractor.extractOneCall
  rw [declared]
  exact collected.bind (served.bind (.pure _))

/-- What a site reports: its address, an argument for every slot, and unless it raises the
values of the slots alone. -/
structure SiteOf (e : ParamExtractor) (target : Nat) (slots : List ArgSlot) (ea : Nat)
    (raises : Option Nat) (site : CallSiteResult) : Prop where
  callEa : site.callEa = ea
  funcEa : site.funcEa = target
  indices : site.arguments.map (·.index) = slots.map (·.index)
  values : raises = none → e.hexrays = none →
    site.arguments.map (some ·.rawValue) = slots.map (e.slotValue ea)

/-- The arguments carry the indices of their slots. -/
theorem ArgumentOf.indices {callEa : Nat} {slots : List ArgSlot} {args : List ArgumentResult}
    (matched : List.Forall₂ (ArgumentOf e callEa) slots args) :
    args.map (·.index) = slots.map (·.index) := by
  induction matched with
  | nil => rfl
  | cons head _ ih => rw [List.map_cons, List.map_cons, head.1, ih]

/-- Without a decompiler the raw values are those of the slots. -/
theorem ArgumentOf.values {callEa : Nat} {slots : List ArgSlot} {args : List ArgumentResult}
    (matched : List.Forall₂ (ArgumentOf e callEa) slots args) (absent : e.hexrays = none) :
    args.map (some ·.rawValue) = slots.map (e.slotValue callEa) := by
  induction matched with
  | nil => rfl
  | cons head _ ih => rw [List.map_cons, List.map_cons, head.2 absent, ih]

/-- As `SiteOf`, with the arguments of a site that does not raise matched to their slots. -/
structure SiteSlots (e : ParamExtractor) (target : Nat) (slots : List ArgSlot) (ea : Nat)
    (raises : Option Nat) (site : CallSiteResult) : Prop where
  callEa : site.callEa = ea
  funcEa : site.funcEa = target
  indices : site.arguments.map (·.index) = slots.map (·.index)
  stands : raises = none → List.Forall₂ (SlotArgument e ea) slots site.arguments

/-- A site made of its slots is a site with their values. -/
theorem SiteSlots.siteOf {target ea : Nat} {slots : List ArgSlot} {raises : Option Nat}
    {site : CallSiteResult} (found : SiteSlots e target slots ea raises site) :
    SiteOf e target slots ea raises site where
  callEa := found.callEa
  funcEa := found.funcEa
  indices := found.indices
  values quiet absent :=
    ArgumentOf.values ((found.stands quiet).imp fun _ _ => SlotArgument.argumentOf) absent

/-- A guarded call site is made of its slots. -/
theorem extractOneCallSafe_slots (callEa funcEa : Nat) {convention : CallingConvention}
    {numArgs : Nat} {slots : List ArgSlot} (argTypes : ArgTypes) (raises : Option Nat)
    (declared : convention.slots numArgs e.port = .ok slots)
    (indexed : slots.map (·.index) = List.range numArgs) (valid : s.Valid e) :
    SiteSlots e funcEa slots callEa raises
      (e.extractOneCallSafe callEa funcEa convention numArgs argTypes raises s).1 := by
  cases raises with
  | some calls =>
      have failed : (e.extractOneCallSafe callEa funcEa convention numArgs argTypes (some calls)
          s).1 = ParamExtractor.failedSite callEa funcEa numArgs := rfl
      rw [failed]
      refine ⟨rfl, rfl, ?_, fun never => by cases never⟩
      rw [indexed, ParamExtractor.failedSite, List.map_map]
      exact List.map_id _
  | none =>
      rcases serves_extractOneCall callEa funcEa argTypes declared with ⟨args, served, stands⟩
      rcases served s valid with ⟨s', ran, -⟩
      have matched := stands.imp fun _ _ => SlotArgument.argumentOf
      have site : (e.extractOneCallSafe callEa funcEa convention numArgs argTypes none s).1 =
          { callEa, funcEa, arguments := args } := by
        simp only [ParamExtractor.extractOneCallSafe, ran, ParamExtractor.caught]
      rw [site]
      exact ⟨rfl, rfl, ArgumentOf.indices matched, fun _ => stands⟩

/-- Every call site is made of its slots, whatever was asked before. -/
theorem extractCallSites_slots (funcEa : Nat) {convention : CallingConvention} {numArgs : Nat}
    {slots : List ArgSlot} (argTypes : ArgTypes) (raisesAfter : Nat → Option Nat)
    (declared : convention.slots numArgs e.port = .ok slots)
    (indexed : slots.map (·.index) = List.range numArgs) (refs : List Nat) (valid : s.Valid e) :
    List.Forall₂ (fun callEa site => SiteSlots e funcEa slots callEa (raisesAfter callEa) site) refs
      (e.extractCallSites funcEa convention numArgs argTypes raisesAfter refs s).1 := by
  induction refs generalizing s with
  | nil => exact .nil
  | cons callEa rest ih =>
      exact .cons (extractOneCallSafe_slots callEa funcEa argTypes _ declared indexed valid)
        (ih (extractOneCallSafe_valid callEa funcEa convention numArgs argTypes _ valid))

/-- The sites stand at the references, in their order. -/
theorem SiteOf.addresses {funcEa : Nat} {slots : List ArgSlot} {raisesAfter : Nat → Option Nat}
    {refs : List Nat} {sites : List CallSiteResult}
    (each : List.Forall₂ (fun ea site => SiteOf e funcEa slots ea (raisesAfter ea) site) refs
      sites) : sites.map (·.callEa) = refs := by
  induction each with
  | nil => rfl
  | cons head _ ih => rw [List.map_cons, head.callEa, ih]

/-- Every reference gets a result, whose arguments stand for the slots. -/
theorem extractCalls_slots (e : ParamExtractor) (history : List Request) {funcEa : Nat}
    {convention : Option CallingConvention} {numArgs : Option Nat} {c : CallingConvention}
    {n : Nat} {slots : List ArgSlot}
    (resolved : e.resolveConvention funcEa convention numArgs = .ok (c, n))
    (declared : c.slots n e.port = .ok slots) (indexed : slots.map (·.index) = List.range n)
    (argTypes : ArgTypes) (raisesAfter : Nat → Option Nat) :
    ∃ report, (e.extractCalls funcEa convention numArgs argTypes raisesAfter
        (e.after history e.new)).1 = .ok report ∧
      List.Forall₂ (fun ea site => SiteSlots e funcEa slots ea (raisesAfter ea) site)
        ((e.port.codeRefsTo funcEa).insertionSort (· ≤ ·)) report.callSites := by
  have refs := codeRefsTo_valid (after_valid history e.new_valid) funcEa
  have sites := extractCallSites_slots funcEa argTypes raisesAfter declared indexed
    ((e.port.codeRefsTo funcEa).insertionSort (· ≤ ·)) refs.2
  exact ⟨_, by simp only [ParamExtractor.extractCalls, resolved, refs.1]; rfl, sites⟩

/-! ## Conventions that name every slot -/

/-- A built-in convention has a slot for each index, under that index. -/
theorem CallingConvention.Builtin.slots_ok {c : CallingConvention} (builtin : c.Builtin)
    (port : FacadePort) (numArgs : Nat) :
    ∃ slots, c.slots numArgs port = .ok slots ∧ slots.map (·.index) = List.range numArgs ∧
      ∀ i < numArgs, ∀ slot, c.slot port i = .ok slot → slots[i]? = some slot := by
  choose slot named using builtin.slot_ok port
  have all : c.slot port = fun i => (pure (slot i) : Except String ArgSlot) :=
    funext fun i => (named i).1
  refine ⟨(List.range numArgs).map slot, ?_, ?_, fun i below given declared => ?_⟩
  · rw [CallingConvention.slots, all, List.mapM_pure]
    rfl
  · rw [List.map_map]
    have same : (fun slot : ArgSlot => slot.index) ∘ slot = id := funext fun i => (named i).2
    rw [same, List.map_id]
  · have same : slot i = given := Except.ok.inj ((named i).1.symm.trans declared)
    simp [below, same]

/-- After any requests on the same extractor, and whichever sites raise, there is one
result for each reference, in ascending order, with the arguments `0 … n - 1` in order.
Without a decompiler the raw value of argument `i` at a site that does not raise is what a
new resolver gives for slot `i` of that site alone. -/
theorem extractCalls_independent (e : ParamExtractor) (history : List Request) {funcEa : Nat}
    {convention : Option CallingConvention} {numArgs : Option Nat} {c : CallingConvention}
    {n : Nat} (resolved : e.resolveConvention funcEa convention numArgs = .ok (c, n))
    (builtin : c.Builtin) (argTypes : ArgTypes) (raisesAfter : Nat → Option Nat) :
    ∃ report, (e.extractCalls funcEa convention numArgs argTypes raisesAfter
        (e.after history e.new)).1 = .ok report ∧
      (report.callSites.map (·.callEa)).Perm (e.port.codeRefsTo funcEa) ∧
      (report.callSites.map (·.callEa)).Pairwise (· ≤ ·) ∧
      ∀ site ∈ report.callSites, site.arguments.map (·.index) = List.range n ∧
        (e.hexrays = none → raisesAfter site.callEa = none →
          ∀ i < n, ∀ slot, c.slot e.port i = .ok slot →
            ∃ arg, site.arguments[i]? = some arg ∧
              e.slotValue site.callEa slot = some arg.rawValue) := by
  rcases builtin.slots_ok e.port n with ⟨slots, declared, indexed, named⟩
  rcases extractCalls_slots e history resolved declared indexed argTypes raisesAfter with
    ⟨report, ran, reported⟩
  have sites := reported.imp fun _ _ => SiteSlots.siteOf
  refine ⟨report, ran, ?_, ?_, ?_⟩
  · rw [SiteOf.addresses sites]
    exact List.perm_insertionSort _ _
  · rw [SiteOf.addresses sites]
    exact List.pairwise_insertionSort _ _
  · intro site member
    rcases exists_of_forall₂ sites.flip member with ⟨ea, -, found⟩
    refine ⟨found.indices.trans indexed, fun absent quiet i below slot declared => ?_⟩
    rw [found.callEa] at quiet ⊢
    have values := found.values quiet absent
    have entry := named i below slot declared
    have at' : (site.arguments.map (some ·.rawValue))[i]? = some (e.slotValue ea slot) := by
      rw [values, List.getElem?_map, entry]
      rfl
    rw [List.getElem?_map] at at'
    rcases Option.map_eq_some_iff.mp at' with ⟨arg, stands, same⟩
    exact ⟨arg, stands, same.symm⟩

/-! ## Two call sites

The program of `test_multiple_call_sites_all_extracted`. -/

namespace TwoSites

def port : FacadePort := FakeIdaPort.toFacadePort
  { pointerSize := 4
    instructions := [FakeIdaPort.push 0x402000 5 (FakeIdaPort.imm 0 1),
      FakeIdaPort.jump 0x402005 "call" 5 0x401000,
      FakeIdaPort.push 0x40200a 5 (FakeIdaPort.imm 0 2),
      FakeIdaPort.jump 0x40200f "call" 5 0x401000]
    funcBounds := [(0x402000, 0x402100)]
    blocks := [(0x402000, [⟨0x402000, 0x402100, [], []⟩])] }

def extractor : ParamExtractor where
  port
  registry := defaultRegistry

/-- A query that an exception cut short. -/
def history : List Request := [.raisingQuery (.resolve (.register 0 0x40200f)) 2]

/-- The second site raises in the middle of its extraction. -/
def raisesAfter (callEa : Nat) : Option Nat := if callEa = 0x40200f then some 3 else none

end TwoSites

open TwoSites in
theorem extractCalls_independent_twoSites :
    ∃ report, (extractor.extractCalls 0x401000 (some (.template cdecl)) (some 1) [] raisesAfter
        (extractor.after history extractor.new)).1 = .ok report ∧
      (report.callSites.map (·.callEa)).Perm [0x402005, 0x40200f] ∧
      ∀ site ∈ report.callSites, site.callEa = 0x402005 →
        ∃ arg, site.arguments[0]? = some arg ∧ arg.rawValue = .concrete (.int 1) .int := by
  rcases @extractCalls_independent extractor history 0x401000 (some (.template cdecl)) (some 1) _ _
      rfl CallingConvention.cdecl_builtin [] raisesAfter with
    ⟨report, ran, addresses, -, sites⟩
  refine ⟨report, ran, addresses, fun site member here => ?_⟩
  have quiet : raisesAfter site.callEa = none := by
    rw [here]
    rfl
  rcases (sites site member).2 rfl quiet 0 (by decide) _ rfl with ⟨arg, stands, alone⟩
  refine ⟨arg, stands, ?_⟩
  rw [here] at alone
  exact (Option.some.inj alone).symm

end IDAnalysister
