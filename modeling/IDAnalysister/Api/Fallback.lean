import IDAnalysister.Api.Facade

/-!
# The decompiler fills holes

What `_extract_one_call` reports for any list of slots, whatever the raw walk gives for
each and whatever the decompiler answers. The loop asks the decompiler when the first raw
value is unknown and remembers the answer; `Remembers` relates what the loop knows before
and after some slots to the calls made between.
-/

namespace IDAnalysister

open Effect Prog

/-- The call of the decompiler that an event stands for, with its answer. -/
def asked : Event Session → Option (Nat × Nat × Option CallArgs)
  | ⟨.resolveCallArgs callEa numArgs, answer⟩ => some (callEa, numArgs, answer)
  | _ => none

/-- The calls of the decompiler in a run. -/
def askings (t : List (Event Session)) : List (Nat × Nat × Option CallArgs) := t.filterMap asked

@[simp] theorem askings_nil : askings [] = [] := rfl

@[simp] theorem askings_append (t₁ t₂ : List (Event Session)) :
    askings (t₁ ++ t₂) = askings t₁ ++ askings t₂ := List.filterMap_append ..

/-- Every operation but the decompiler's. -/
def SessionOp.Quiet : SessionOp → Prop
  | .resolveCallArgs _ _ => False
  | _ => True

/-- Quiet operations ask the decompiler nothing. -/
theorem askings_eq_nil {t : List (Event Session)} (quiet : ∀ ev ∈ t, ev.op.Quiet) :
    askings t = [] := by
  refine List.filterMap_eq_nil_iff.mpr fun ev member => ?_
  have silent := quiet ev member
  rcases ev with ⟨o, r⟩
  cases o with
  | resolveCallArgs callEa numArgs => exact silent.elim
  | renew | resolver | codeRefsTo => rfl

/-! ## The raw walk does not ask -/

theorem Session.lift_quiet {α : Type} (q : Query α) : Uses SessionOp.Quiet (Session.lift q) :=
  Uses.interpret (fun _ => .call trivial fun _ => .pure _) q

theorem Session.fresh_quiet {α : Type} (q : Query α) : Uses SessionOp.Quiet (Session.fresh q) :=
  .call trivial fun _ => Session.lift_quiet q

namespace ParamExtractor

variable {e : ParamExtractor} {callEa numArgs : Nat}

/-- Resolving a slot asks the decompiler nothing. -/
theorem resolveSlot_quiet (callEa : Nat) (slot : ArgSlot) (pushes : List Nat) :
    Uses SessionOp.Quiet (e.resolveSlot callEa slot pushes) := by
  unfold resolveSlot
  split
  · split
    · exact .pure _
    · exact Session.fresh_quiet _
  · split
    · split
      · exact .pure _
      · exact Session.fresh_quiet _
    · split
      · exact .pure _
      · exact Session.fresh_quiet _

/-- Nor does collecting pushes. -/
theorem pushesFor_quiet (callEa : Nat) (slots : List ArgSlot) :
    Uses SessionOp.Quiet (e.pushesFor callEa slots) := by
  unfold pushesFor
  split
  · exact Session.lift_quiet _
  · exact .pure _

/-! ## What the loop remembers -/

/-- Between two points of the loop the decompiler was not asked and nothing new is known, or
it was asked once and its answer is known from then on. -/
def Remembers (callEa numArgs : Nat) (tried tried' : Option (Option CallArgs))
    (t : List (Event Session)) : Prop :=
  tried' = tried ∧ askings t = [] ∨
    tried = none ∧ ∃ answer, tried' = some answer ∧ askings t = [(callEa, numArgs, answer)]

theorem Remembers.refl {tried : Option (Option CallArgs)} {t : List (Event Session)}
    (silent : askings t = []) : Remembers callEa numArgs tried tried t := Or.inl ⟨rfl, silent⟩

/-- Remembering goes on over two stretches of a trace. -/
theorem Remembers.trans {a b c : Option (Option CallArgs)} {t₁ t₂ : List (Event Session)}
    (first : Remembers callEa numArgs a b t₁) (second : Remembers callEa numArgs b c t₂) :
    Remembers callEa numArgs a c (t₁ ++ t₂) := by
  rcases first with ⟨rfl, silent⟩ | ⟨rfl, answer, rfl, once⟩
  · simpa [Remembers, silent] using second
  · rcases second with ⟨rfl, silent⟩ | ⟨unknown, -⟩
    · exact Or.inr ⟨rfl, answer, rfl, by simp [once, silent]⟩
    · cases unknown

/-- An answer is not forgotten. -/
theorem Remembers.kept {answer : Option CallArgs} {c : Option (Option CallArgs)}
    {t : List (Event Session)} (later : Remembers callEa numArgs (some answer) c t) :
    c = some answer := by
  rcases later with ⟨rfl, -⟩ | ⟨unknown, -⟩
  · rfl
  · cases unknown

/-- The value and source of an argument: the decompiler's entry when there is a known one and
the raw walk has found nothing. -/
def filled (answer : Option CallArgs) (slot : ArgSlot) (raw : ValueLattice) :
    ValueLattice × ResultSource :=
  if raw.isKnown then (raw, .raw)
  else
    match (answer.bind fun args => args.lookup slot.index).filter (·.isKnown) with
    | some value => (value, .hexraysFallback)
    | none => (raw, .raw)

theorem filled_known {answer : Option CallArgs} {slot : ArgSlot} {raw : ValueLattice}
    (known : raw.isKnown = true) : filled answer slot raw = (raw, .raw) := if_pos known

theorem filled_none (slot : ArgSlot) (raw : ValueLattice) : filled none slot raw = (raw, .raw) := by
  simp [filled]

/-- The decompiler's answer is remembered from the first asking on. -/
theorem hexraysArgs_exec {tried : Option (Option CallArgs)} {answer : Option CallArgs}
    {t : List (Event Session)} (run : Exec (hexraysArgs callEa numArgs tried) t answer) :
    Remembers callEa numArgs tried (some answer) t := by
  cases tried with
  | none =>
      obtain ⟨r, t', rfl, rest⟩ := exec_call.mp run
      obtain ⟨rfl, rfl⟩ := exec_pure.mp rest
      exact Or.inr ⟨rfl, answer, rfl, rfl⟩
  | some remembered =>
      obtain ⟨rfl, rfl⟩ := exec_pure.mp run
      exact .refl rfl

/-- One slot: the decompiler's answer is needed for an unknown raw value only. -/
def Filling (e : ParamExtractor) (slot : ArgSlot) (raw : ValueLattice)
    (tried : Option (Option CallArgs))
    (found : ValueLattice × ResultSource × Option (Option CallArgs)) : Prop :=
  (raw.isKnown ∨ e.hexrays.isNone) ∧ found = (raw, .raw, tried) ∨
    (raw.isKnown = false ∧ e.hexrays.isSome) ∧ ∃ answer, found.2.2 = some answer ∧
      (found.1, found.2.1) = filled answer slot raw

variable {slot : ArgSlot} {raw : ValueLattice} {tried : Option (Option CallArgs)}
  {found : ValueLattice × ResultSource × Option (Option CallArgs)} {t : List (Event Session)}

/-- Falling back remembers, and fills the slot from what is remembered. -/
theorem fallBack_exec (run : Exec (e.fallBack callEa numArgs slot raw tried) t found) :
    Remembers callEa numArgs tried found.2.2 t ∧ e.Filling slot raw tried found := by
  unfold fallBack at run
  split at run
  · rename_i settled
    obtain ⟨rfl, rfl⟩ := exec_pure.mp run
    exact ⟨.refl rfl, Or.inl ⟨settled, rfl⟩⟩
  · rename_i open'
    obtain ⟨hole, backend⟩ := not_or.mp open'
    obtain ⟨t₁, t₂, answer, rfl, asked, rest⟩ := exec_bind.mp run
    have remembers := hexraysArgs_exec asked
    have hole' : raw.isKnown = false := by simpa using hole
    have backend' : e.hexrays.isSome := by simpa [Option.isSome_iff_ne_none] using backend
    cases entry : (answer.bind fun args => args.lookup slot.index).filter (·.isKnown) with
    | none =>
        rw [entry] at rest
        obtain ⟨rfl, rfl⟩ := exec_pure.mp rest
        refine ⟨by simpa using remembers, Or.inr ⟨⟨hole', backend'⟩, answer, rfl, ?_⟩⟩
        simp [filled, hole', entry]
    | some value =>
        rw [entry] at rest
        obtain ⟨rfl, rfl⟩ := exec_pure.mp rest
        refine ⟨by simpa using remembers, Or.inr ⟨⟨hole', backend'⟩, answer, rfl, ?_⟩⟩
        simp [filled, hole', entry]

/-- Without a backend nothing is ever remembered. -/
theorem Filling.absent (filling : e.Filling slot raw tried found)
    (absent : e.hexrays.isNone → tried = none) : e.hexrays.isNone → found.2.2 = none := by
  intro none
  rcases filling with ⟨-, rfl⟩ | ⟨⟨-, backend⟩, -⟩
  · exact absent none
  · simp [Option.isNone_iff_eq_none.mp none] at backend

/-- What was taken for the slot is what the answer known in the end gives for it. -/
theorem Filling.filled_eq {tried' : Option (Option CallArgs)}
    (filling : e.Filling slot raw tried found)
    (later : Remembers callEa numArgs found.2.2 tried' t)
    (absent : e.hexrays.isNone → tried' = none) :
    (found.1, found.2.1) = filled tried'.join slot raw := by
  rcases filling with ⟨known | none, rfl⟩ | ⟨-, answer, known, value⟩
  · exact (filled_known known).symm
  · rw [absent none]
    exact (filled_none slot raw).symm
  · rw [known] at later
    rw [later.kept]
    exact value

/-! ## The loop -/

/-- Some slot is left to the decompiler. -/
def Leaves (e : ParamExtractor) (raws : List ValueLattice) : Prop :=
  e.hexrays.isSome ∧ ∃ raw ∈ raws, raw.isKnown = false

theorem Leaves.cons {raws : List ValueLattice} (leaves : e.Leaves raws) : e.Leaves (raw :: raws) :=
  ⟨leaves.1, leaves.2.imp fun _ => And.imp_left (List.mem_cons_of_mem _)⟩

theorem Leaves.of_cons {raws : List ValueLattice} (leaves : e.Leaves (raw :: raws))
    (settled : raw.isKnown ∨ e.hexrays.isNone) : e.Leaves raws := by
  rcases leaves with ⟨backend, other, member, hole⟩
  rcases List.mem_cons.mp member with rfl | later
  · rcases settled with known | none
    · rw [known] at hole
      cases hole
    · simp [Option.isNone_iff_eq_none.mp none] at backend
  · exact ⟨backend, other, later, hole⟩

/-- What the loop reports of a slot with this raw value. -/
def reported (answer : Option CallArgs) (slot : ArgSlot) (raw : ValueLattice) :
    Nat × ValueLattice × ResultSource := (slot.index, filled answer slot raw)

/-- A run of the loop: the raw value of each slot, and what is known of the decompiler when
it ends. -/
structure Looped (e : ParamExtractor) (callEa numArgs : Nat) (pushes : List Nat)
    (slots : List ArgSlot) (tried tried' : Option (Option CallArgs)) (t : List (Event Session))
    (raws : List ValueLattice) (args : List ArgumentResult) : Prop where
  resolved : List.Forall₂ (fun slot raw => ∃ t', t' <:+: t ∧
    Exec (e.resolveSlot callEa slot pushes) t' raw) slots raws
  remembers : Remembers callEa numArgs tried tried' t
  asks : e.Leaves raws → tried'.isSome
  quiet : ¬ e.Leaves raws → tried' = tried
  arguments : args.map (fun arg => (arg.index, arg.rawValue, arg.source)) =
    List.zipWith (reported tried'.join) slots raws

/-- The decompiler was asked when a slot was left to it, and only then. -/
theorem Looped.asked_iff {pushes : List Nat} {slots : List ArgSlot}
    {tried' : Option (Option CallArgs)} {raws : List ValueLattice} {args : List ArgumentResult}
    (loop : e.Looped callEa numArgs pushes slots none tried' t raws args) :
    askings t ≠ [] ↔ e.Leaves raws := by
  rcases loop.remembers with ⟨rfl, none⟩ | ⟨-, answer, rfl, once⟩
  · refine ⟨fun asks => (asks none).elim, fun leaves => ?_⟩
    have some := loop.asks leaves
    cases some
  · refine ⟨fun _ => ?_, fun _ => by simp [once]⟩
    by_contra settled
    cases loop.quiet settled

/-- The loop over the slots remembers, and fills every slot from the same answer. -/
theorem extractArguments_exec {pushes : List Nat} {argTypes : ArgTypes} {slots : List ArgSlot}
    {args : List ArgumentResult} (absent : e.hexrays.isNone → tried = none)
    (run : Exec (e.extractArguments callEa numArgs pushes argTypes tried slots) t args) :
    ∃ raws tried', e.Looped callEa numArgs pushes slots tried tried' t raws args := by
  induction slots generalizing tried t args with
  | nil =>
      obtain ⟨rfl, rfl⟩ := exec_pure.mp run
      exact ⟨[], tried, .nil, .refl rfl, by simp [Leaves], fun _ => rfl, rfl⟩
  | cons slot rest ih =>
      obtain ⟨t₁, _, raw, rfl, resolved, run⟩ := exec_bind.mp run
      obtain ⟨t₂, _, found, rfl, fell, run⟩ := exec_bind.mp run
      obtain ⟨t₃, _, later, rfl, looped, last⟩ := exec_bind.mp run
      obtain ⟨rfl, rfl⟩ := exec_pure.mp last
      have filling := fallBack_exec fell
      have absent' := filling.2.absent absent
      rcases ih absent' looped with ⟨raws, tried', each, remembers, asks, kept, shown⟩
      have silent : askings t₁ = [] :=
        askings_eq_nil ((resolveSlot_quiet callEa slot pushes).begins resolved.begins)
      have never : e.hexrays.isNone → tried' = none := by
        intro none
        rw [kept (by simp [Leaves, Option.isNone_iff_eq_none.mp none]), absent' none]
      refine ⟨raw :: raws, tried', .cons ⟨t₁, (List.prefix_append _ _).isInfix, resolved⟩ ?_, ?_,
        fun leaves => ?_, fun leaves => ?_, ?_⟩
      · refine each.imp fun slot raw ⟨t', within, run⟩ => ⟨t', within.trans ⟨t₁ ++ t₂, [], ?_⟩, run⟩
        simp
      · simpa using (Remembers.refl silent).trans (filling.1.trans remembers)
      · rcases filling.2 with ⟨settled, -⟩ | ⟨-, answer, known, -⟩
        · exact asks (leaves.of_cons settled)
        · rw [known] at remembers
          rw [remembers.kept]
          rfl
      · rcases filling.2 with ⟨-, rfl⟩ | ⟨hole, -⟩
        · exact kept fun inner => leaves inner.cons
        · exact (leaves ⟨hole.2, raw, List.mem_cons_self, hole.1⟩).elim
      · rw [List.map_cons, List.zipWith_cons_cons, shown, reported,
          ← filling.2.filled_eq remembers never]
        rfl

/-! ## Runs that end early -/

/-- Up to any point the decompiler is asked at most once, and not again once its answer is
known. -/
def AskedOnce (callEa numArgs : Nat) (tried : Option (Option CallArgs)) (t : List (Event Session)) :
    Prop :=
  askings t = [] ∨ tried = none ∧ ∃ answer, askings t = [(callEa, numArgs, answer)]

/-- What remembers asks once at most. -/
theorem Remembers.askedOnce {tried' : Option (Option CallArgs)}
    (remembers : Remembers callEa numArgs tried tried' t) : AskedOnce callEa numArgs tried t := by
  rcases remembers with ⟨-, silent⟩ | ⟨fresh, answer, -, once⟩
  · exact Or.inl silent
  · exact Or.inr ⟨fresh, answer, once⟩

/-- One asking in all, when the second stretch starts from what the first remembers. -/
theorem Remembers.andThen {tried' : Option (Option CallArgs)} {t₁ t₂ : List (Event Session)}
    (first : Remembers callEa numArgs tried tried' t₁)
    (second : AskedOnce callEa numArgs tried' t₂) : AskedOnce callEa numArgs tried (t₁ ++ t₂) := by
  rcases second with silent | ⟨rfl, answer, once⟩
  · exact (first.trans (.refl silent)).askedOnce
  · have asks : Remembers callEa numArgs none (some answer) t₂ := Or.inr ⟨rfl, answer, rfl, once⟩
    exact (first.trans asks).askedOnce

/-- However far it gets, the decompiler is asked once at most. -/
theorem hexraysArgs_begins (begun : Begins (hexraysArgs callEa numArgs tried) t) :
    AskedOnce callEa numArgs tried t := by
  cases tried with
  | some answer => exact Or.inl (by rw [begins_pure.mp begun, askings_nil])
  | none =>
      cases begun with
      | start => exact Or.inl rfl
      | call rest =>
          rw [begins_pure.mp rest]
          exact Or.inr ⟨rfl, _, rfl⟩

/-- However far falling back gets, it asks once at most. -/
theorem fallBack_begins (begun : Begins (e.fallBack callEa numArgs slot raw tried) t) :
    AskedOnce callEa numArgs tried t := by
  unfold fallBack at begun
  split at begun
  · exact Or.inl (by rw [begins_pure.mp begun, askings_nil])
  · rcases begun.bind_inv with early | ⟨t₁, t₂, answer, rfl, asked, begun⟩
    · exact hexraysArgs_begins early
    · have settled : t₂ = [] := by
        split at begun <;> exact begins_pure.mp begun
      rw [settled, List.append_nil]
      exact (hexraysArgs_exec asked).askedOnce

/-- However far the loop gets, it asks once at most. -/
theorem extractArguments_begins {pushes : List Nat} {argTypes : ArgTypes} {slots : List ArgSlot}
    (begun : Begins (e.extractArguments callEa numArgs pushes argTypes tried slots) t) :
    AskedOnce callEa numArgs tried t := by
  induction slots generalizing tried t with
  | nil => exact Or.inl (by rw [begins_pure.mp begun, askings_nil])
  | cons slot rest ih =>
      have quiet := resolveSlot_quiet (e := e) callEa slot pushes
      rcases begun.bind_inv with early | ⟨t₁, _, raw, rfl, resolved, begun⟩
      · exact Or.inl (askings_eq_nil (quiet.begins early))
      · have silent := askings_eq_nil (quiet.begins resolved.begins)
        refine (Remembers.refl silent).andThen ?_
        rcases begun.bind_inv with early | ⟨t₂, _, found, rfl, fell, begun⟩
        · exact fallBack_begins early
        · refine (fallBack_exec fell).1.andThen ?_
          rcases begun.bind_inv with early | ⟨t₃, _, later, rfl, looped, begun⟩
          · exact ih early
          · rw [begins_pure.mp begun, List.append_nil]
            exact ih looped.begins

/-- Without a decompiler nothing asks it. -/
theorem extractArguments_quiet {pushes : List Nat} {argTypes : ArgTypes} {slots : List ArgSlot}
    (absent : e.hexrays = none) :
    Uses SessionOp.Quiet (e.extractArguments callEa numArgs pushes argTypes tried slots) := by
  induction slots generalizing tried with
  | nil => exact .pure _
  | cons slot rest ih =>
      refine (resolveSlot_quiet callEa slot pushes).bind fun raw => ?_
      have unchanged : e.fallBack callEa numArgs slot raw tried = .pure (raw, .raw, tried) :=
        if_pos (Or.inr (by simp [absent]))
      rw [unchanged]
      exact ih.bind fun later => .pure _

/-! ## One call site -/

/-- What `_extract_one_call` does once the convention has named its slots. -/
def extractSlots (e : ParamExtractor) (callEa numArgs : Nat) (argTypes : ArgTypes)
    (slots : List ArgSlot) : Prog Session (List ArgumentResult) := do
  let pushes ← e.pushesFor callEa slots
  e.extractArguments callEa numArgs pushes argTypes none slots

theorem extractOneCall_slots {convention : CallingConvention} {slots : List ArgSlot} (funcEa : Nat)
    (argTypes : ArgTypes) (declared : convention.slots numArgs e.port = .ok slots) :
    e.extractOneCall callEa funcEa convention numArgs argTypes =
      (e.extractSlots callEa numArgs argTypes slots).bind fun arguments =>
        .pure (.ok { callEa, funcEa, arguments }) := by
  simp only [extractOneCall, declared, extractSlots, bind_eq, bind_bind]
  rfl

/-- However far a call site gets, it asks once at most. -/
theorem extractSlots_begins {argTypes : ArgTypes} {slots : List ArgSlot}
    (begun : Begins (e.extractSlots callEa numArgs argTypes slots) t) :
    AskedOnce callEa numArgs none t := by
  have collects := pushesFor_quiet (e := e) callEa slots
  rcases begun.bind_inv with early | ⟨t₁, t₂, pushes, rfl, collected, begun⟩
  · exact Or.inl (askings_eq_nil (collects.begins early))
  · have silent := askings_eq_nil (collects.begins collected.begins)
    exact (Remembers.refl silent).andThen (extractArguments_begins begun)

/-- In a run of one call site, also one that ends early, the decompiler is asked at most
once, and never when there is none. In a complete run it is asked exactly when there is one
and some raw value is unknown; every argument is the raw value of its slot, unless that is
unknown and the answer has a known entry for the index, which is then reported as such. -/
theorem extractOneCall_fallback (e : ParamExtractor) (callEa numArgs : Nat) (argTypes : ArgTypes)
    (slots : List ArgSlot) :
    (∀ funcEa convention, convention.slots numArgs e.port = .ok slots →
        e.extractOneCall callEa funcEa convention numArgs argTypes =
          (e.extractSlots callEa numArgs argTypes slots).bind fun arguments =>
            .pure (.ok { callEa, funcEa, arguments })) ∧
      (∀ t, Begins (e.extractSlots callEa numArgs argTypes slots) t →
        (askings t = [] ∨ ∃ answer, askings t = [(callEa, numArgs, answer)]) ∧
          (e.hexrays = none → askings t = [])) ∧
      ∀ t args, Exec (e.extractSlots callEa numArgs argTypes slots) t args →
        ∃ pushes raws,
          List.Forall₂ (fun slot raw => ∃ t', t' <:+: t ∧
            Exec (e.resolveSlot callEa slot pushes) t' raw) slots raws ∧
          (askings t ≠ [] ↔ e.hexrays.isSome ∧ ∃ raw ∈ raws, raw.isKnown = false) ∧
          args.map (fun arg => (arg.index, arg.rawValue, arg.source)) =
            List.zipWith (reported ((askings t).head?.bind (·.2.2))) slots raws := by
  have collects := pushesFor_quiet (e := e) callEa slots
  refine ⟨fun funcEa convention declared => extractOneCall_slots funcEa argTypes declared,
    fun t begun => ⟨?_, fun absent => ?_⟩, fun t args run => ?_⟩
  · exact (extractSlots_begins begun).imp_right And.right
  · exact askings_eq_nil ((collects.bind fun pushes => extractArguments_quiet absent).begins begun)
  · obtain ⟨t₁, t₂, pushes, rfl, collected, looped⟩ := exec_bind.mp run
    rcases extractArguments_exec (fun _ => rfl) looped with ⟨raws, tried', loop⟩
    have silent := askings_eq_nil (collects.begins collected.begins)
    refine ⟨pushes, raws, loop.resolved.imp fun slot raw => ?_, ?_, ?_⟩
    · rintro ⟨t', within, run⟩
      exact ⟨t', within.trans (List.suffix_append t₁ t₂).isInfix, run⟩
    · rw [askings_append, silent, List.nil_append]
      exact loop.asked_iff
    · rw [loop.arguments, askings_append, silent, List.nil_append]
      rcases loop.remembers with ⟨rfl, none⟩ | ⟨-, answer, rfl, once⟩
      · rw [none]
        rfl
      · rw [once]
        rfl

namespace TwoSlots

/-- The decompiler knows the argument that no register holds, and another one. -/
def extractor : ParamExtractor where
  port := SpentBudget.port
  registry := defaultRegistry
  hexrays := some fun _ _ => some [(1, .concrete (.int 7) .int), (0, .concrete (.int 9) .int)]

/-- Only the first argument has a location. -/
def prototype : FunctionPrototype where
  callingConvention := "fastcall"
  argLocations := [{ index := 0, isRegister := true, reg := some 6 }]

def slots : List ArgSlot := [prototype.slot 0, prototype.slot 1]

def arguments : List ArgumentResult :=
  [{ index := 0, rawValue := .concrete (.int 0x404000) .int
     processedValue := .concrete (.int 0x404000) .int },
    { index := 1, rawValue := .concrete (.int 7) .int, processedValue := .concrete (.int 7) .int
      source := .hexraysFallback }]

theorem slots_filled : ∃ t, Exec (extractor.extractSlots 0x401005 2 [] slots) t arguments ∧
    ∃ pushes raws,
      List.Forall₂ (fun slot raw => ∃ t', t' <:+: t ∧
        Exec (extractor.resolveSlot 0x401005 slot pushes) t' raw) slots raws ∧
      (askings t ≠ [] ↔ extractor.hexrays.isSome ∧ ∃ raw ∈ raws, raw.isKnown = false) ∧
      arguments.map (fun arg => (arg.index, arg.rawValue, arg.source)) =
        List.zipWith (reported ((askings t).head?.bind (·.2.2))) slots raws := by
  have returned : (attempt extractor.sessionHandler none
      (extractor.extractSlots 0x401005 2 [] slots) extractor.new).1 = some arguments := by decide
  rcases exec_of_attempt (Prod.ext returned rfl) with ⟨t, run⟩
  exact ⟨t, run, (extractOneCall_fallback extractor 0x401005 2 [] slots).2.2 t arguments run⟩

end TwoSlots

end ParamExtractor

end IDAnalysister
