import IDAnalysister.Api.Independence
import IDAnalysister.Backward.Extension

/-!
# What a report says of the program

From the report of `extract_calls`, back through the session, the slots of the convention and
the resolver, to the executions of the caller: a concrete value that the raw engine gives is
what the slot holds whenever an execution gets to the call. Nothing that was asked of the
session before matters, nor where exceptions struck.
-/

namespace IDAnalysister

open Effect Prog Memo Transfer Trace

/-! ## What a slot resolves to -/

section Slots

variable {e : ParamExtractor} {callEa : Nat} {slot : ArgSlot} {d : Datum} {k : ValueKind}

theorem answer_of_served {s : SessionState} (valid : s.Valid e) {q : PublicQuery}
    {v : ValueLattice} (ran : (attempt e.sessionHandler none
      (Session.fresh (e.resolver.program e.resolver.fuel q)) s).1 = some v) :
    e.resolver.answer q = some v := by
  rcases serve_resolve q valid with ⟨u, answered, -⟩
  rw [answered]
  rw [answer_eq] at answered
  rcases fresh_served valid answered with ⟨s'', served, -⟩
  rw [served] at ran
  exact ran

/-- The push at `ea` stands at a position counted from the end of the sequence that is collected
for the call. -/
def ParamExtractor.PushedAt (e : ParamExtractor) (callEa : Nat) (position : Int) (ea : Nat) :
    Prop :=
  ∃ pushes, (∀ b, attempt (handler e.port.toIdaPort) none
    (e.resolver.collectPushSequence callEa) b = (some pushes, b)) ∧
    ParamExtractor.pushAt pushes position = some ea

/-- A concrete value of a slot is an answer of the resolver about it. -/
theorem slotValue_concrete (value : e.slotValue callEa slot = some (.concrete d k)) :
    (slot.kind = .register ∧ ∃ r, slot.reg = some r ∧
      e.resolver.resolveRegister r callEa = some (.concrete d k)) ∨
    (slot.kind = .stackOffset ∧ ∃ offset, slot.stackOffset = some offset ∧
      e.resolver.resolveMemory e.port.stackPointerReg offset callEa e.port.pointerSize =
        some (.concrete d k)) ∨
    (slot.kind = .stackPush ∧ ∃ position ea, slot.stackPushPosition = some position ∧
      e.PushedAt callEa position ea ∧
      e.resolver.resolveAtInstruction ea 0 = some (.concrete d k)) := by
  rw [ParamExtractor.slotValue, ParamExtractor.slotAlone] at value
  cases kind : slot.kind with
  | register =>
      have unneeded : [slot].any (·.kind = .stackPush) = false := by simp [kind]
      simp only [bind_eq, ParamExtractor.pushesFor, unneeded, Bool.false_eq_true, if_false,
        ParamExtractor.resolveSlot, kind, reduceCtorEq, dite_false, if_true] at value
      cases named : slot.reg with
      | none =>
          rw [named] at value
          cases value
      | some r =>
          rw [named] at value
          exact Or.inl ⟨rfl, r, rfl, answer_of_served e.new_valid value⟩
  | stackOffset =>
      have unneeded : [slot].any (·.kind = .stackPush) = false := by simp [kind]
      simp only [bind_eq, ParamExtractor.pushesFor, unneeded, Bool.false_eq_true, if_false,
        ParamExtractor.resolveSlot, kind, reduceCtorEq, dite_false] at value
      cases placed : slot.stackOffset with
      | none =>
          rw [placed] at value
          cases value
      | some offset =>
          rw [placed] at value
          exact Or.inr (Or.inl ⟨rfl, offset, rfl, answer_of_served e.new_valid value⟩)
  | stackPush =>
      have needed : [slot].any (·.kind = .stackPush) = true := by simp [kind]
      rcases collectPushSequence_returns e.resolver callEa with ⟨pushes, ran⟩
      rcases query_served e.new_valid (ran e.new.budget) with ⟨s, served, valid, -⟩
      rcases Option.isSome_iff_exists.mp (slot.push_isSome kind) with ⟨position, placed⟩
      simp only [bind_eq, ParamExtractor.pushesFor, needed, if_true] at value
      rw [attempt_bind served] at value
      simp only [ParamExtractor.resolveSlot, kind, dite_true, placed, Option.get_some] at value
      cases taken : ParamExtractor.pushAt pushes position with
      | none =>
          rw [taken] at value
          cases value
      | some ea =>
          rw [taken] at value
          exact Or.inr (Or.inr ⟨rfl, position, ea, placed, ⟨pushes, ran, taken⟩,
            answer_of_served valid value⟩)

end Slots

/-! ## What a report was made of -/

section Reports

variable {e : ParamExtractor} {s : SessionState} {funcEa n : Nat} {c : CallingConvention}
variable {argTypes : ArgTypes} {raisesAfter : Nat → Option Nat}

/-- An argument with a known value stands for a slot of the convention. -/
structure StandsForSlot (e : ParamExtractor) (c : CallingConvention) (n callEa : Nat)
    (arg : ArgumentResult) (slot : ArgSlot) : Prop where
  declared : ∃ index < n, c.slot e.port index = .ok slot
  stands : SlotArgument e callEa slot arg

theorem exists_of_mapM_ok {α β ε : Type} {f : α → Except ε β} {xs : List α} {ys : List β}
    (ran : xs.mapM f = .ok ys) {y : β} (member : y ∈ ys) : ∃ x ∈ xs, f x = .ok y := by
  induction xs generalizing ys with
  | nil =>
      cases ran
      cases member
  | cons x xs ih =>
      rw [List.mapM_cons] at ran
      cases first : f x with
      | error err =>
          rw [first] at ran
          cases ran
      | ok z =>
          cases rest : xs.mapM f with
          | error err =>
              rw [first, rest] at ran
              cases ran
          | ok zs =>
              rw [first, rest] at ran
              cases ran
              rcases List.mem_cons.mp member with rfl | later
              · exact ⟨x, List.mem_cons_self, first⟩
              · rcases ih rest later with ⟨x', inRest, same⟩
                exact ⟨x', List.mem_cons_of_mem x inRest, same⟩

theorem mem_slots {slots : List ArgSlot} (declared : c.slots n e.port = .ok slots) {slot : ArgSlot}
    (member : slot ∈ slots) : ∃ index < n, c.slot e.port index = .ok slot := by
  rcases exists_of_mapM_ok declared member with ⟨index, inRange, found⟩
  exact ⟨index, List.mem_range.mp inRange, found⟩

/-- A site has the address it was asked for, and its known arguments stand for slots. -/
theorem site_stands {callEa : Nat} {raises : Option Nat} (valid : s.Valid e)
    {site : CallSiteResult}
    (made : (e.extractOneCallSafe callEa funcEa c n argTypes raises s).1 = site) :
    site.callEa = callEa ∧ ∀ arg ∈ site.arguments, arg.rawValue.isKnown →
      ∃ slot, StandsForSlot e c n callEa arg slot := by
  have failed (gaveUp : ParamExtractor.failedSite callEa funcEa n = site) :
      site.callEa = callEa ∧ ∀ arg ∈ site.arguments, arg.rawValue.isKnown →
        ∃ slot, StandsForSlot e c n callEa arg slot := by
    subst gaveUp
    refine ⟨rfl, fun arg member known => ?_⟩
    rcases List.mem_map.mp member with ⟨index, -, rfl⟩
    cases known
  cases raises with
  | some calls => exact failed made
  | none =>
      cases declared : c.slots n e.port with
      | error message =>
          have ran : e.extractOneCall callEa funcEa c n argTypes = .pure (.error message) := by
            rw [ParamExtractor.extractOneCall, declared]
            rfl
          rw [ParamExtractor.extractOneCallSafe, ran] at made
          exact failed made
      | ok slots =>
          rcases serves_extractOneCall callEa funcEa argTypes declared with ⟨args, served, stands⟩
          rcases served s valid with ⟨s', ran, -⟩
          simp only [ParamExtractor.extractOneCallSafe, ran, ParamExtractor.caught] at made
          subst made
          refine ⟨rfl, fun arg member _ => ?_⟩
          rcases exists_of_forall₂ stands.flip member with ⟨slot, inSlots, argument⟩
          exact ⟨slot, mem_slots declared inSlots, argument⟩

theorem mem_extractCallSites {refs : List Nat} (valid : s.Valid e) {site : CallSiteResult}
    (member : site ∈ (e.extractCallSites funcEa c n argTypes raisesAfter refs s).1) :
    site.callEa ∈ refs ∧ ∀ arg ∈ site.arguments, arg.rawValue.isKnown →
      ∃ slot, StandsForSlot e c n site.callEa arg slot := by
  induction refs generalizing s with
  | nil => cases member
  | cons callEa rest ih =>
      rcases List.mem_cons.mp member with first | later
      · rcases site_stands valid first.symm with ⟨rfl, stands⟩
        exact ⟨List.mem_cons_self, stands⟩
      · have next := extractOneCallSafe_valid callEa funcEa c n argTypes (raisesAfter callEa) valid
        rcases ih next later with ⟨listed, stands⟩
        exact ⟨List.mem_cons_of_mem callEa listed, stands⟩

/-- The sites of a report are references to the target, and their known arguments stand for slots
of the convention in force. -/
theorem mem_report (history : List Request) {target : Nat} {convention : Option CallingConvention}
    {numArgs : Option Nat} {report : ExtractionReport}
    (ran : (e.extractCalls target convention numArgs argTypes raisesAfter
      (e.after history e.new)).1 = .ok report) {site : CallSiteResult}
    (member : site ∈ report.callSites) :
    site.callEa ∈ e.port.codeRefsTo target ∧ ∀ arg ∈ site.arguments, arg.rawValue.isKnown →
      ∃ c n slot, e.resolveConvention target convention numArgs = .ok (c, n) ∧
        StandsForSlot e c n site.callEa arg slot := by
  cases resolved : e.resolveConvention target convention numArgs with
  | error message =>
      simp only [ParamExtractor.extractCalls, resolved] at ran
      cases ran
  | ok chosen =>
      rcases chosen with ⟨c, n⟩
      have refs := codeRefsTo_valid (after_valid history e.new_valid) target
      simp only [ParamExtractor.extractCalls, resolved, refs.1] at ran
      cases ran
      rcases mem_extractCallSites refs.2 member with ⟨listed, stands⟩
      refine ⟨(List.mem_insertionSort _).mp listed, fun arg inSite known => ?_⟩
      rcases stands arg inSite known with ⟨slot, slots⟩
      exact ⟨c, n, slot, rfl, slots⟩

end Reports

/-! ## The report is right -/

/-- What the slot stands for at the call is `d`, in every caller that the resolver is right
about. For a push slot it is the operand of the push, when the push gets to it. -/
structure SlotIs (e : ParamExtractor) (callEa : Nat) (slot : ArgSlot) (d : Datum) : Prop where
  register : slot.kind = .register → ∃ r, slot.reg = some r ∧
    ∀ {W : Nat} (f : ExplainedFunction e.resolver W), f.places (.reg r) →
      f.Always callEa (.reg r) d
  stackOffset : slot.kind = .stackOffset → ∃ offset, slot.stackOffset = some offset ∧
    ∀ {W : Nat} (f : ExplainedFunction e.resolver W) (cell : MemoryKey),
      memoryLocation e.port.toIdaPort e.port.stackPointerReg offset callEa f.funcEa = cell →
      f.places (.cell cell) → f.Always callEa (.cell cell) d
  stackPush : slot.kind = .stackPush → ∃ position ea i, slot.stackPushPosition = some position ∧
    e.PushedAt callEa position ea ∧ e.port.decodeAt ea = some i ∧
    (e.registry.findMatch i = some pushLocator → ∃ op, i.operand 0 = some op ∧
      ∀ {W : Nat} (f : ExplainedFunction e.resolver W), f.OperandIs i op d)

theorem slotIs_of_value {e : ParamExtractor} {callEa : Nat} {slot : ArgSlot} {d : Datum}
    {k : ValueKind} (value : e.slotValue callEa slot = some (.concrete d k)) :
    SlotIs e callEa slot d := by
  rcases slotValue_concrete value with
    ⟨kind, r, named, answer⟩ | ⟨kind, offset, placed, answer⟩ |
      ⟨kind, position, ea, placed, pushed, answer⟩
  · refine ⟨fun _ => ⟨r, named, fun f chosen => ?_⟩, ?_, ?_⟩
    · exact f.always_register chosen answer
    · intro other
      rw [kind] at other
      cases other
    · intro other
      rw [kind] at other
      cases other
  · refine ⟨?_, fun _ => ⟨offset, placed, fun f cell located chosen => ?_⟩, ?_⟩
    · intro other
      rw [kind] at other
      cases other
    · exact f.always_cell located chosen answer
    · intro other
      rw [kind] at other
      cases other
  · refine ⟨?_, ?_, fun _ => ?_⟩
    · intro other
      rw [kind] at other
      cases other
    · intro other
      rw [kind] at other
      cases other
    · rcases push_explained e.resolver answer with ⟨i, decoded, operand⟩
      exact ⟨position, ea, i, placed, pushed, decoded, operand⟩

namespace FastCall

open FakeIdaPort

def setEcx : Instruction := insn 0x402000 "mov" 5 [reg 0 1, imm 1 5]

def pushSeven : Instruction := FakeIdaPort.push 0x402005 2 (imm 0 7)

def code : List Instruction := [setEcx, pushSeven, jump 0x402007 "call" 5 0x401000]

def port : FacadePort := FakeIdaPort.toFacadePort
  { pointerSize := 4
    instructions := code
    funcBounds := [(0x402000, 0x40200c)]
    blocks := [(0x402000, [⟨0x402000, 0x40200c, [], []⟩])] }

def extractor : ParamExtractor where
  port
  registry := defaultRegistry

def function : ExplainedFunction extractor.resolver 32 where
  funcEa := 0x402000
  graph :=
    { tile := fun _ => code
      entry := ⟨0x402000, 0x40200c, [], []⟩
      entry_mem := by decide
      entry_startEa := rfl
      nonempty := by decide
      disjoint := by decide
      converse := by decide
      tiled := by decide
      decoded := by decide
      heads := by decide
      owner := by decide }
  source := by decide
  places := OffStack port.toIdaPort 32
  sem := CallerStep port.toIdaPort 0x402000 32
  explained _ _ _ _ := explains_callerStep rfl (by decide) (by decide)

/-- The push moves the stack pointer, which is register 4. -/
theorem along (m : State Place 32) : Along function.sem [setEcx, pushSeven] m
    (Function.update (Function.update m (.reg 1) 5#32) (.reg 4) (m (.reg 4) - 4)) := by
  refine .cons (.form ⟨.const (.reg 1) 5, ?_, fun _ _ _ => False.elim, rfl⟩)
    (.cons (.push rfl (by decide) fun p off => ?_) (.nil _))
  · exact .register (.movImm rfl ⟨rfl, rfl, rfl, rfl, rfl⟩
      ⟨rfl, rfl, rfl, wholeReg rfl (by decide)⟩ ⟨rfl, rfl, by decide, by decide⟩)
  · refine Function.update_of_ne (fun same => ?_) _ _
    subst same
    exact off.2 rfl

end FastCall

end IDAnalysister
