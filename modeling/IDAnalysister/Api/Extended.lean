import IDAnalysister.Api.FallbackOperands
import IDAnalysister.Backward.Conservative
import IDAnalysister.Locators.ExtensionPoints

/-!
# Sessions that register more locators

A session that registers further locators behind its own reports everything that it reported
before. Known arguments stay what they were, but for one that the decompiler gave: the resolver
may now find that by itself.
-/

namespace IDAnalysister

open Effect Prog

namespace ParamExtractor

/-- The same extractor with another registry. -/
def withRegistry (e : ParamExtractor) (r : LocatorRegistry) : ParamExtractor :=
  { e with registry := r }

variable {e : ParamExtractor} {r' : LocatorRegistry}

section Slots

variable (strict : ∀ l ∈ e.registry.all, l.Strict) (extended : e.registry.Extends r')

include strict extended

theorem fresh_improves (q : PublicQuery) :
    Improves Undetermined (Session.fresh (e.resolver.program e.resolver.fuel q))
      (Session.fresh
        ((e.withRegistry r').resolver.program (e.withRegistry r').resolver.fuel q)) := by
  have inner := @program_improves e.resolver r' strict extended e.resolver.fuel q
  exact .call fun _ => inner.lift Session.resolve

theorem slotAlone_improves (callEa : Nat) (slot : ArgSlot) :
    Improves Undetermined (e.slotAlone callEa slot)
      ((e.withRegistry r').slotAlone callEa slot) := by
  have pushes : Improves (fun _ => False) (e.pushesFor callEa [slot])
      ((e.withRegistry r').pushesFor callEa [slot]) := .refl _
  refine pushes.bind (fun _ never => never.elim) fun pushes => ?_
  have queries := fresh_improves strict extended
  unfold resolveSlot
  split
  · split
    · exact .refl _
    · exact queries _
  · split
    · split
      · exact .refl _
      · exact queries _
    · split
      · exact .refl _
      · exact queries _

/-- A slot with a known value keeps it. -/
theorem slotValue_extended {callEa : Nat} {slot : ArgSlot} {v : ValueLattice}
    (value : e.slotValue callEa slot = some v) (known : v.isKnown) :
    (e.withRegistry r').slotValue callEa slot = some v := by
  have good : ¬ Undetermined v := by
    intro lost
    rw [Undetermined, known] at lost
    cases lost
  have ran : attempt e.sessionHandler none (e.slotAlone callEa slot) e.new =
      (some v, (attempt e.sessionHandler none (e.slotAlone callEa slot) e.new).2) :=
    Prod.ext value rfl
  exact congrArg Prod.fst ((slotAlone_improves strict extended callEa slot).attempt ran good)

end Slots

/-! ## Arguments and sites -/

/-- What a further locator may do to an argument that is known: where the decompiler gave it, the
resolver may now find one itself. -/
structure ArgumentKept (arg arg' : ArgumentResult) : Prop where
  index : arg'.index = arg.index
  known : arg.rawValue.isKnown → arg' = arg ∨
    (arg.source = .hexraysFallback ∧ arg'.source = .raw ∧ arg'.rawValue.isKnown)

theorem MadeFrom.kept (strict : ∀ l ∈ e.registry.all, l.Strict)
    (extended : e.registry.Extends r') {argTypes : ArgTypes} {callEa numArgs : Nat}
    {slot : ArgSlot} {arg arg' : ArgumentResult}
    (made : e.MadeFrom argTypes callEa numArgs slot arg)
    (made' : (e.withRegistry r').MadeFrom argTypes callEa numArgs slot arg') :
    ArgumentKept arg arg' := by
  rcases made with ⟨raw, value, rfl⟩
  rcases made' with ⟨raw', value', rfl⟩
  refine ⟨rfl, fun found => ?_⟩
  cases known : raw.isKnown with
  | true =>
      have same := slotValue_extended strict extended value known
      obtain rfl := Option.some.inj (same.symm.trans value')
      exact Or.inl rfl
  | false =>
      cases entry : ((e.decompiled callEa numArgs).bind fun args => args.lookup slot.index).filter
          (·.isKnown) with
      | none =>
          have missing : filled (e.decompiled callEa numArgs) slot raw = (raw, .raw) := by
            rw [filled_unknown known, entry]
            rfl
          rw [reportedArgument, missing] at found
          exact absurd found (by simp [argumentResult, known])
      | some v =>
          have taken : ∀ raw : ValueLattice, raw.isKnown = false →
              filled (e.decompiled callEa numArgs) slot raw = (v, .hexraysFallback) := by
            intro raw unknown
            rw [filled_unknown unknown, entry]
            rfl
          cases known' : raw'.isKnown with
          | true =>
              refine Or.inr ⟨?_, ?_, ?_⟩
              · rw [reportedArgument, taken raw known]
                rfl
              · rw [reportedArgument, filled_known known']
                rfl
              · rw [reportedArgument, filled_known known']
                exact known'
          | false =>
              have same : e.reportedArgument argTypes callEa numArgs slot raw' =
                  e.reportedArgument argTypes callEa numArgs slot raw := by
                rw [reportedArgument, reportedArgument, taken raw known, taken raw' known']
              exact Or.inl same

/-- The same site, with the same arguments known. -/
structure SiteKept (site site' : CallSiteResult) : Prop where
  callEa : site'.callEa = site.callEa
  funcEa : site'.funcEa = site.funcEa
  arguments : List.Forall₂ ArgumentKept site.arguments site'.arguments

theorem forall₂_join {ι α β : Type} {P : ι → α → Prop} {Q : ι → β → Prop} {xs : List ι}
    {as : List α} {bs : List β} (left : List.Forall₂ P xs as) (right : List.Forall₂ Q xs bs) :
    List.Forall₂ (fun a b => ∃ x, P x a ∧ Q x b) as bs := by
  induction left generalizing bs with
  | nil =>
      cases right
      exact .nil
  | cons first _ ih =>
      cases right with
      | cons first' rest => exact .cons ⟨_, first, first'⟩ (ih rest)

theorem SiteMade.kept (strict : ∀ l ∈ e.registry.all, l.Strict)
    (extended : e.registry.Extends r') {argTypes : ArgTypes} {callEa funcEa numArgs : Nat}
    {slots : List ArgSlot} {raises : Option Nat} {site site' : CallSiteResult}
    (made : e.SiteMade argTypes funcEa numArgs slots callEa raises site)
    (made' : (e.withRegistry r').SiteMade argTypes funcEa numArgs slots callEa raises site') :
    SiteKept site site' := by
  refine ⟨made'.address.trans made.address.symm, made'.target.trans made.target.symm, ?_⟩
  cases raises with
  | some calls =>
      rw [← made.raised (Option.some_ne_none calls), ← made'.raised (Option.some_ne_none calls)]
      exact List.forall₂_same.mpr fun arg _ => ⟨rfl, fun _ => Or.inl rfl⟩
  | none =>
      refine (forall₂_join (made.made rfl) (made'.made rfl)).imp fun arg arg' given => ?_
      rcases given with ⟨slot, old, new⟩
      exact old.kept strict extended new

end ParamExtractor

open ParamExtractor LocatorRegistry

/-- Locators that are registered behind those of a session take nothing away. Every known answer
of the resolver stays as it is, and a report keeps every known argument, whatever both sessions
were asked before; only where the decompiler gave it, the resolver may now have one itself. -/
theorem extension_conservative (e : ParamExtractor) {entries added : List (Int × Locator)}
    (registered : e.registry = registerAll entries) (strict : ∀ old ∈ entries, old.2.Strict)
    (behind : ∀ new ∈ added, ∀ i, new.2.accepts i = some true →
      ∀ old ∈ entries, old.2.accepts i = some true → new.1 ≤ old.1)
    {e' : ParamExtractor} (more : e.withRegistry (registerAll (entries ++ added)) = e') :
    (∀ q v, e.resolver.answer q = some v → v.isKnown → e'.resolver.answer q = some v) ∧
    ∀ (history history' : List Request) {funcEa : Nat} {convention : Option CallingConvention}
      {numArgs : Option Nat} {c : CallingConvention} {n : Nat} {slots : List ArgSlot},
      e.resolveConvention funcEa convention numArgs = .ok (c, n) →
      c.slots n e.port = .ok slots → ∀ (argTypes : ArgTypes) (raisesAfter : Nat → Option Nat),
        ∃ report report',
          (e.extractCalls funcEa convention numArgs argTypes raisesAfter
            (e.after history e.new)).1 = .ok report ∧
          (e'.extractCalls funcEa convention numArgs argTypes raisesAfter
            (e'.after history' e'.new)).1 = .ok report' ∧
          List.Forall₂ SiteKept report.callSites report'.callSites := by
  have extended : e.registry.Extends (registerAll (entries ++ added)) := by
    rw [registered]
    exact extends_registerAll behind
  have each : ∀ l ∈ e.registry.all, l.Strict := by
    intro l member
    rw [registered] at member
    rcases mem_all_registerAll.mp member with ⟨priority, listed⟩
    exact strict _ listed
  refine ⟨fun q v answered known => ?_, fun history history' funcEa convention numArgs c n slots
    resolved declared argTypes raisesAfter => ?_⟩
  · rw [← more]
    exact @answer_extended e.resolver _ each extended q v answered known
  · have resolved' : e'.resolveConvention funcEa convention numArgs = .ok (c, n) := by
      rw [← more]
      exact resolved
    have declared' : c.slots n e'.port = .ok slots := by
      rw [← more]
      exact declared
    rcases e.extractCalls_made history resolved declared argTypes raisesAfter with
      ⟨report, ran, made⟩
    rcases e'.extractCalls_made history' resolved' declared' argTypes raisesAfter with
      ⟨report', ran', made'⟩
    have refs : e'.port.codeRefsTo funcEa = e.port.codeRefsTo funcEa := by
      rw [← more]
      rfl
    rw [refs] at made'
    refine ⟨report, report', ran, ran', (forall₂_join made made').imp fun site site' given => ?_⟩
    rcases given with ⟨callEa, old, new⟩
    rw [← more] at new
    exact old.kept each extended new

/-! ### The complement, added to the built-in locators -/

open FastCall in
theorem extension_conservative_fastCall :
    (extractor.withRegistry (registerExample defaultRegistry)).resolver.answer
      (.register 1 0x402007) = some (.concrete (.int 5) .int) := by
  have strict : ∀ old ∈ BuiltinModule.all.flatMap BuiltinModule.registerBuiltins,
      old.2.Strict := by
    intro old member
    rcases List.mem_flatMap.mp member with ⟨m, -, listed⟩
    have builtin := BuiltinModule.mem_builtins listed
    rw [← defaultRegistry_all] at builtin
    exact builtins_strict old.2 builtin
  have priorities : ∀ old ∈ BuiltinModule.all.flatMap BuiltinModule.registerBuiltins,
      0 ≤ old.1 := by decide
  have behind : ∀ new ∈ [((0 : Int), notLocator)], ∀ i, new.2.accepts i = some true →
      ∀ old ∈ BuiltinModule.all.flatMap BuiltinModule.registerBuiltins,
        old.2.accepts i = some true → new.1 ≤ old.1 := by
    intro new member _ _ old listed _
    rw [List.mem_singleton.mp member]
    exact priorities old listed
  exact (extension_conservative extractor defaultRegistry_eq strict behind
    (congrArg extractor.withRegistry registerExample_defaultRegistry.symm)).1
      (.register 1 0x402007) _ (by decide) rfl

end IDAnalysister
