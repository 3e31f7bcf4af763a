import IDAnalysister.Api.Coverage
import IDAnalysister.Api.ReportSoundness
import IDAnalysister.Forward.Soundness

/-!
# Arguments inside a function

`ParamExtractor.resolve_argument_at` (`api/facade.py`): where the convention puts an argument,
and what the forward engine says of that register at an instruction. Together with a report, the
answers follow an argument from the caller that sets it up through functions that pass it on.
-/

namespace IDAnalysister

open Transfer Trace

/-! ## Slots, one for each index -/

theorem forall₂_of_mapM_ok {α β ε : Type} {f : α → Except ε β} {xs : List α} {ys : List β}
    (ran : xs.mapM f = .ok ys) : List.Forall₂ (fun x y => f x = .ok y) xs ys := by
  induction xs generalizing ys with
  | nil =>
      cases ran
      exact .nil
  | cons x xs ih =>
      rw [List.mapM_cons] at ran
      cases first : f x with
      | error err =>
          rw [first] at ran
          cases ran
      | ok z =>
          cases rest : xs.mapM f with
          | error err =>
              rw [first, rest] at ran
              cases ran
          | ok zs =>
              rw [first, rest] at ran
              cases ran
              exact .cons first (ih rest)

namespace CallingConvention

variable {c : CallingConvention} {port : FacadePort} {n : Nat} {slots : List ArgSlot}

theorem length_slots (declared : c.slots n port = .ok slots) : slots.length = n := by
  rw [← (forall₂_of_mapM_ok declared).length_eq, List.length_range]

theorem slots_get (declared : c.slots n port = .ok slots) {index : Nat} (below : index < n) :
    c.slot port index =
      .ok (slots.get ⟨index, (length_slots declared).symm ▸ below⟩) := by
  have same := (forall₂_of_mapM_ok declared).get (i := index) (by simpa using below)
    ((length_slots declared).symm ▸ below)
  simpa using same

/-- The slot that a convention gives for an index has that index. -/
def Indexed (c : CallingConvention) : Prop :=
  ∀ port index slot, c.slot port index = .ok slot → slot.index = index

theorem Builtin.indexed (builtin : c.Builtin) : c.Indexed := by
  intro port index slot found
  rcases builtin.slot_ok port index with ⟨slot', found', same⟩
  obtain rfl := Except.ok.inj (found.symm.trans found')
  exact same

theorem indexed_build (name : String) (calls : List BuilderCall) :
    (custom (buildConvention name calls)).Indexed := by
  have kept : ∀ index spec, (buildConvention name calls).slotSpecs.lookup index = some spec →
      spec.index = index := by
    induction calls using List.reverseRecOn with
    | nil =>
        intro index spec found
        cases found
    | append_singleton calls call ih =>
        have declared (i : Nat) (slot : ArgSlot) (same : slot.index = i) (index : Nat)
            (spec : ArgSlot) (found : ((i, slot) ::
              (buildConvention name calls).slotSpecs).lookup index = some spec) :
            spec.index = index := by
          rw [List.lookup_cons] at found
          rcases eq_or_ne index i with rfl | other
          · simp at found
            rw [← found, same]
          · rw [beq_false_of_ne other] at found
            exact ih index spec found
        intro index spec found
        rw [buildConvention, List.foldl_concat, ← buildConvention] at found
        rcases call with ⟨i | i, _⟩ | ⟨i | i, _⟩ | ⟨i | i, _⟩
        · exact ih index spec found
        · exact ih index spec found
        · exact declared i _ rfl index spec found
        · exact ih index spec found
        · exact declared i _ rfl index spec found
        · exact ih index spec found
  intro port index slot found
  change (buildConvention name calls).slot port index = _ at found
  unfold CustomConvention.slot at found
  split at found
  · cases found
    rfl
  · split at found
    · rename_i spec listed
      cases found
      exact kept index _ listed
    · cases found

end CallingConvention

/-! ## `resolve_argument_at` -/

namespace ParamExtractor

variable (self : ParamExtractor)

/-- The engine of `resolve_argument_at`, with the limits it has by default. -/
def forwardEngine : ForwardSymbolicEngine where
  port := self.port.toIdaPort
  registry := self.registry

/-- The register that is tracked: a stack slot has none. -/
def initialReg (slot : ArgSlot) : Option Nat := if slot.kind = .register then slot.reg else none

/-- `resolve_argument_at`; an error is a `ConventionError` with its message. `raises` says
whether the forward walk raised, and `none` that its bound was hit. -/
def resolveArgumentAt (bound funcEa : Nat) (argIndex : Int) (targetEa : Nat)
    (convention : Option CallingConvention) (numArgs : Option Nat) (raises : Bool) :
    Except String (Option ValueLattice) :=
  match self.resolveConvention funcEa convention numArgs with
  | .error message => .error message
  | .ok (convention, numArgs) =>
      if inRange : 0 ≤ argIndex ∧ argIndex < numArgs then
        match declared : convention.slots numArgs self.port with
        | .error message => .error message
        | .ok slots =>
            let slot := slots.get ⟨argIndex.toNat, by
              rw [CallingConvention.length_slots declared]
              omega⟩
            if raises then .ok (some (.unknown' .internalError))
            else .ok (self.forwardEngine.resolveAt bound funcEa argIndex targetEa
              (initialReg slot))
      else .ok (some (.unknown .unsupportedOperandShape "argument index out of range"))

/-- The convention in force for a function puts the argument into the register. -/
def ComesIn (funcEa : Nat) (convention : Option CallingConvention) (numArgs : Option Nat)
    (index reg : Nat) : Prop :=
  ∃ c n slot, self.resolveConvention funcEa convention numArgs = .ok (c, n) ∧ index < n ∧
    c.slot self.port index = .ok slot ∧ slot.kind = .register ∧ slot.reg = some reg

variable {self} {bound funcEa targetEa : Nat} {argIndex : Int}
variable {convention : Option CallingConvention} {numArgs : Option Nat} {raises : Bool}
variable {v : ValueLattice}

/-- Nothing is known of an argument out of range, of one on the stack, or when the walk raised. -/
theorem resolveArgumentAt_known (answer : self.resolveArgumentAt bound funcEa argIndex targetEa
    convention numArgs raises = .ok (some v)) (known : v.isKnown) :
    ∃ index reg, argIndex = .ofNat index ∧
      self.ComesIn funcEa convention numArgs index reg ∧
      self.forwardEngine.resolveAt bound funcEa argIndex targetEa (some reg) = some v := by
  unfold resolveArgumentAt at answer
  cases resolved : self.resolveConvention funcEa convention numArgs with
  | error message =>
      rw [resolved] at answer
      cases answer
  | ok chosen =>
      rcases chosen with ⟨c, n⟩
      rw [resolved] at answer
      dsimp only at answer
      split at answer
      · rename_i inRange
        rcases inRange with ⟨nonneg, below⟩
        split at answer
        · cases answer
        · rename_i slots declared
          split at answer
          · cases answer
            cases known
          · have below' : argIndex.toNat < n := by omega
            have found := CallingConvention.slots_get declared below'
            have answer := Except.ok.inj answer
            rw [initialReg] at answer
            split at answer
            · rename_i kind
              generalize slots.get _ = slot at found kind answer
              cases named : slot.reg with
              | none =>
                  rw [named] at answer
                  cases answer
                  cases known
              | some reg =>
                  rw [named] at answer
                  exact ⟨argIndex.toNat, reg, (Int.toNat_of_nonneg nonneg).symm,
                    ⟨c, n, slot, resolved, below', found, kind, named⟩, answer⟩
            · cases answer
              cases known
      · cases answer
        cases known

end ParamExtractor

/-- A convention that was not given is inferred or the default, and has its own indices. -/
theorem indexed_resolveConvention {e : ParamExtractor} {funcEa : Nat}
    {convention : Option CallingConvention} {numArgs : Option Nat} {c : CallingConvention} {n : Nat}
    (indexed : ∀ c, convention = some c → c.Indexed)
    (resolved : e.resolveConvention funcEa convention numArgs = .ok (c, n)) : c.Indexed := by
  have chosen : c = convention.getD
      ((if convention.isNone then inferPrototype e.port funcEa else none).elim
        (.template cdecl) .prototype) := by
    unfold ParamExtractor.resolveConvention at resolved
    dsimp only at resolved
    split at resolved
    · cases resolved
      rfl
    · rename_i same
      cases resolved
      rfl
    · cases resolved
  cases convention with
  | some given => exact chosen ▸ indexed given rfl
  | none =>
      rw [chosen]
      cases inferPrototype e.port funcEa with
      | none => exact CallingConvention.cdecl_builtin.indexed
      | some p => exact CallingConvention.Builtin.indexed (Or.inr ⟨p, rfl⟩)

/-! ## From one function to the next -/

/-- A function that was asked for one of its arguments at an instruction, typically a call, with
a walk that no visit limit cut short. -/
structure Hop (e : ParamExtractor) (W : Nat) where
  funcEa : Nat
  index : Nat
  reg : Nat
  targetEa : Nat
  convention : Option CallingConvention
  numArgs : Option Nat
  comesIn : e.ComesIn funcEa convention numArgs index reg
  whole : WholeReg e.port.toIdaPort W reg
  graph : ConsistentCfg e.port.toIdaPort funcEa
  source : graph.cfg.predecessors graph.entry = []
  bound : Nat
  walked : ForwardSymbolicEngine.WalkState
  run : e.forwardEngine.runWorklist bound (graph.walk index reg) = some walked
  visits : e.forwardEngine.WithinVisits walked

namespace Hop

variable {e : ParamExtractor} {W : Nat} (hop : Hop e W)

/-- What `resolve_argument_at` answers there. -/
def answer : Except String (Option ValueLattice) :=
  e.resolveArgumentAt hop.bound hop.funcEa hop.index hop.targetEa hop.convention hop.numArgs false

/-- The answer is the symbol of the argument. -/
def PassesOn : Prop := hop.answer = .ok (some (.symbolic ("arg" ++ toString (hop.index : Int))))

/-- The function is entered with the register as the code before left it, and an execution gets
to the instruction asked about. -/
inductive Executes (s s' : State Place W) : Prop
  | intro {m : State Place W} {π : List Instruction} : m (.reg hop.reg) = s (.reg hop.reg) →
    hop.graph.PathTo hop.targetEa π →
    Along (TrackedStep e.port.toIdaPort hop.funcEa W) π m s' → Executes s s'

theorem ComesIn.unique {funcEa index reg reg' : Nat} {convention : Option CallingConvention}
    {numArgs : Option Nat} (left : e.ComesIn funcEa convention numArgs index reg)
    (right : e.ComesIn funcEa convention numArgs index reg') : reg = reg' := by
  rcases left with ⟨c, n, slot, resolved, -, found, -, named⟩
  rcases right with ⟨c', n', slot', resolved', -, found', -, named'⟩
  obtain ⟨rfl, rfl⟩ := Prod.mk.inj (Except.ok.inj (resolved.symm.trans resolved'))
  obtain rfl := Except.ok.inj (found.symm.trans found')
  exact Option.some.inj (named.symm.trans named')

variable {hop}

theorem standsFor (builtin : e.registry = defaultRegistry) (positive : 0 < W) (le : W ≤ 64)
    {v : ValueLattice} (answered : hop.answer = .ok (some v)) {s s' : State Place W}
    (executes : hop.Executes s s') :
    StandsFor hop.index (s (.reg hop.reg)) (s' (.reg hop.reg)) v := by
  cases known : v.isKnown with
  | false => exact standsFor_of_unknown known _
  | true =>
      rcases ParamExtractor.resolveArgumentAt_known answered known with
        ⟨index, reg, same, comesIn, answer⟩
      obtain rfl := Int.ofNat.inj same
      obtain rfl := ComesIn.unique hop.comesIn comesIn
      rcases executes with ⟨entered, path, execution⟩
      rw [← entered]
      exact standsFor_of_answer e.forwardEngine builtin positive le hop.graph hop.source hop.whole
        hop.run hop.visits answer path execution

end Hop

/-- Executions of functions that each hand the register on to the next. -/
inductive Handed {e : ParamExtractor} {W : Nat} (reg : Nat) :
    List (Hop e W) → State Place W → State Place W → Prop
  | done (s : State Place W) : Handed reg [] s s
  | hop {hop : Hop e W} {rest : List (Hop e W)} {s m s' : State Place W} :
    hop.reg = reg → hop.PassesOn → hop.Executes s m → Handed reg rest m s' →
    Handed reg (hop :: rest) s s'

theorem Handed.kept {e : ParamExtractor} {W reg : Nat} {hops : List (Hop e W)}
    {s s' : State Place W} (handed : Handed reg hops s s') (builtin : e.registry = defaultRegistry)
    (positive : 0 < W) (le : W ≤ 64) : s' (.reg reg) = s (.reg reg) := by
  induction handed with
  | done => rfl
  | hop same passes executes _ ih =>
      subst same
      rw [ih]
      exact (Hop.standsFor builtin positive le passes executes).argument rfl

namespace CallThrough

open FakeIdaPort

def callBlock : BasicBlockInfo := ⟨0x402000, 0x40200c, [], []⟩

def setBlock : BasicBlockInfo := ⟨0x401000, 0x401005, [0x401005], []⟩

def loopBlock : BasicBlockInfo := ⟨0x401005, 0x401007, [0x401005], [0x401000, 0x401005]⟩

/-- The caller of `FastCall`, and a function with a loop at the address it calls. -/
def port : FacadePort := FakeIdaPort.toFacadePort
  { pointerSize := 4
    instructions := FastCall.code ++ [CountedLoop.setEsi, CountedLoop.back]
    funcBounds := [(0x401000, 0x401007), (0x402000, 0x40200c)]
    blocks := [(0x402000, [callBlock]), (0x401000, [setBlock, loopBlock])] }

def extractor : ParamExtractor where
  port
  registry := defaultRegistry

def caller : ExplainedFunction extractor.resolver 32 where
  funcEa := 0x402000
  graph :=
    { tile := fun _ => FastCall.code
      entry := callBlock
      entry_mem := by decide
      entry_startEa := rfl
      nonempty := by decide
      disjoint := by decide
      converse := by decide
      tiled := by decide
      decoded := by decide
      heads := by decide
      owner := by decide }
  source := by decide
  places := OffStack port.toIdaPort 32
  sem := CallerStep port.toIdaPort 0x402000 32
  explained _ _ _ _ := explains_callerStep rfl (by decide) (by decide)

def called : ConsistentCfg port.toIdaPort 0x401000 where
  tile b := if b.startEa = 0x401000 then [CountedLoop.setEsi] else [CountedLoop.back]
  entry := setBlock
  entry_mem := by decide
  entry_startEa := rfl
  nonempty := by decide
  disjoint := by decide
  converse := by decide
  tiled := by decide
  decoded := by decide
  heads := by decide
  owner := by decide

/-- The calls on a builder that put the first argument into `ecx`. -/
def calls : List BuilderCall := [.reg 0 "ecx"]

def convention : CallingConvention := .custom (buildConvention "in_ecx" calls)

theorem comesIn : extractor.ComesIn 0x401000 (some convention) (some 1) 0 1 :=
  ⟨convention, 1, { index := 0, kind := .register, reg := some 1 }, rfl, by decide,
    by decide +kernel, rfl, rfl⟩

theorem walks : ∃ w, extractor.forwardEngine.runWorklist 64 (called.walk 0 1) = some w ∧
    extractor.forwardEngine.WithinVisits w :=
  exists_walk (by decide)

theorem answers : extractor.resolveArgumentAt 64 0x401000 (0 : Nat) 0x401005
    (some convention) (some 1) false =
      .ok (some (.symbolic ("arg" ++ toString ((0 : Nat) : Int)))) := by
  decide +kernel

/-- The caller up to the call. -/
theorem along_caller (m : State Place 32) : Along caller.sem [FastCall.setEcx, FastCall.pushSeven] m
    (Function.update (Function.update m (.reg 1) 5#32) (.reg 4) (m (.reg 4) - 4)) := by
  refine .cons (.form ⟨.const (.reg 1) 5, ?_, fun _ _ _ => False.elim, rfl⟩)
    (.cons (.push rfl (by decide) fun p off => ?_) (.nil _))
  · exact .register (.movImm rfl ⟨rfl, rfl, rfl, rfl, rfl⟩
      ⟨rfl, rfl, rfl, wholeReg rfl (by decide)⟩ ⟨rfl, rfl, by decide, by decide⟩)
  · refine Function.update_of_ne (fun same => ?_) _ _
    subst same
    exact off.2 rfl

/-- The called function, once round its loop. -/
theorem along_called (m : State Place 32) : Along (TrackedStep port.toIdaPort 0x401000 32)
    [CountedLoop.setEsi, CountedLoop.back] m
      (Function.update m (.reg 6) (BitVec.ofInt 32 0x404000)) := by
  have form : Form port.toIdaPort 0x401000 32 CountedLoop.setEsi (.const (.reg 6) 0x404000) :=
    .register (.movImm rfl ⟨rfl, rfl, rfl, rfl, rfl⟩
      ⟨rfl, rfl, rfl, wholeReg rfl (by decide)⟩ ⟨rfl, rfl, by decide, by decide⟩)
  refine .cons (.transfer form nofun rfl)
    (.cons (.other (by decide) ?_ (Or.inr (by decide)) fun _ _ => rfl) (.nil _))
  intro op member reg
  obtain rfl := List.mem_singleton.mp member
  cases reg

theorem once : called.PathTo 0x401005 [CountedLoop.setEsi, CountedLoop.back] := by
  have entered : loopBlock ∈ called.cfg.successors called.entry := by decide
  have again : loopBlock ∈ called.cfg.successors loopBlock := by decide
  exact .intro (.step (.step .entry entered) again) (by decide) (by decide)

end CallThrough

end IDAnalysister
