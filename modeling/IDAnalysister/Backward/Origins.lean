import IDAnalysister.Adapters.FakePort
import IDAnalysister.Backward.Chains
import IDAnalysister.Library.Provenance
import Mathlib.Data.BitVec

/-!
# Returned words and loaded words

What `resolve_register` reports in a straight line of calls, moves, loads of globals,
additions, `lea` and zero idioms. What a call returned is reported as a symbol, and a load as
a reference to its cell. `AddSubRegImmLocator.extract` passes on what is no integer as it
stands, so these answers leave out what was added since; `denotations_hold_iff` says that
nothing else can go wrong.
-/

namespace IDAnalysister

open Effect Prog Provenance

/-! ## The instruction forms -/

/-- A word that no instruction names: what the call at `ea` returned, or what the code read at
a static address. -/
inductive Outside
  | ret (ea : Nat)
  | cell (addr : Int) (size : Nat)
  deriving DecidableEq

abbrev Assignment (W : Nat) := Provenance.Step Nat Outside (BitVec W)

/-- A call leaves arbitrary words in the registers it clobbers, and its result in the return
register. -/
def callSteps (port : IdaPort) (W ea : Nat) : List (Assignment W) :=
  .havoc (isCallClobbered port) ::
    (port.returnValueReg.map fun r => .fresh r (.ret ea)).toList

/-- What an instruction does to whole registers. A `lea` adds as `add` does, but its locator
gives up on what is no integer. -/
inductive DataForm (port : IdaPort) (W : Nat) (i : Instruction) : List (Assignment W) → Prop
  | call : i.isCall → (∀ op ∈ i.operands, i.isWritten op.number = false) →
    DataForm port W i (callSteps port W i.ea)
  | movImm {a b : Operand} {d : Nat} {n : Int} : i.mnem = "mov" → Pair i a b true false →
    RegOperand port W a d → ImmOperand W b n → DataForm port W i [.const d (BitVec.ofInt W n)]
  | movReg {a b : Operand} {d s : Nat} : i.mnem = "mov" → Pair i a b true false →
    RegOperand port W a d → RegOperand port W b s → DataForm port W i [.shift true d s 0]
  | load {a b : Operand} {d : Nat} {addr : Int} : i.mnem = "mov" → Pair i a b true false →
    RegOperand port W a d → GlobalOperand b addr → b.dtypeSize * 8 = W →
    DataForm port W i [.fresh d (.cell addr b.dtypeSize)]
  | addImm {a b : Operand} {d : Nat} {n : Int} : i.mnem = "add" → Pair i a b true false →
    RegOperand port W a d → ImmOperand W b n →
    DataForm port W i [.shift true d d (BitVec.ofInt W n)]
  | subImm {a b : Operand} {d : Nat} {n : Int} : i.mnem = "sub" → Pair i a b true false →
    RegOperand port W a d → ImmOperand W b n →
    DataForm port W i [.shift true d d (BitVec.ofInt W (-n))]
  | lea {a b : Operand} {d s : Nat} : i.mnem = "lea" → Pair i a b true false →
    RegOperand port W a d → b.kind = .memDispl ∨ b.kind = .memPhrase → b.reg = some s →
    WholeReg port W s → b.hasIndex = false →
    DataForm port W i [.shift false d s (BitVec.ofInt W b.disp)]
  | zero {a b : Operand} {d : Nat} : i.mnem = "xor" → Pair i a b true false →
    RegOperand port W a d → RegOperand port W b d → DataForm port W i [.const d 0]

/-- The instructions do the assignments. -/
def DataRow (port : IdaPort) (W : Nat) (is : List Instruction) (rows : List (List (Assignment W))) :
    Prop :=
  List.Forall₂ (DataForm port W) is rows

/-! ## What is reported -/

/-- The answer for a word from outside. -/
def Outside.answer (port : IdaPort) : Outside → ValueLattice
  | ret ea => .symbolic ("ret(" ++ hex ea ++ ")")
  | cell addr size => dereferenced port addr size

/-- A number is reported, and a drifted word as if it had not drifted. -/
def Reported (port : IdaPort) {W : Nat} : Origin Outside (BitVec W) → ValueLattice → Prop
  | .lost, v => v.isKnown = false
  | .number x, v => ∃ k, v = .concrete (.int x.toNat) k
  | .drifted s _, v => v = s.answer port

section Reported

variable {port : IdaPort} {W size : Nat} {o : Origin Outside (BitVec W)} {v : ValueLattice}

theorem Outside.intOf_answer (s : Outside) (port : IdaPort) : (s.answer port).intOf = none := by
  cases s with
  | ret ea => rfl
  | cell addr size =>
      rw [answer, dereferenced]
      split <;> rfl

theorem Reported.add (width : size * 8 = W) (positive : 0 < W) (le : W ≤ 64)
    (reported : Reported port o v) (n : Int) :
    Reported port (o.shift true (BitVec.ofInt W n)) (addSubValue v n size) := by
  cases o with
  | lost =>
      rcases ValueLattice.isKnown_eq_false reported with ⟨reason, detail, rfl⟩
      rfl
  | number x =>
      rcases reported with ⟨k, rfl⟩
      refine ⟨.int, ?_⟩
      change ValueLattice.concrete (.int (wrapToWidth ((x.toNat : Int) + n) size)) .int = _
      rw [wrapToWidth_add width positive le]
  | drifted s δ =>
      obtain rfl := reported
      rw [addSubValue, s.intOf_answer]
      rfl

theorem Reported.lea (width : size * 8 = W) (positive : 0 < W) (le : W ≤ 64)
    (reported : Reported port o v) (n : Int) :
    Reported port (o.shift false (BitVec.ofInt W n)) (leaValue v n size) := by
  cases o with
  | lost =>
      rcases ValueLattice.isKnown_eq_false reported with ⟨reason, detail, rfl⟩
      rfl
  | number x =>
      rcases reported with ⟨k, rfl⟩
      refine ⟨.pointer, ?_⟩
      change ValueLattice.concrete (.int (wrapToWidth ((x.toNat : Int) + n) size)) .pointer = _
      rw [wrapToWidth_add width positive le]
  | drifted s δ =>
      obtain rfl := reported
      rw [leaValue, s.intOf_answer]
      cases known : (s.answer port).isKnown with
      | true => rfl
      | false => exact known

end Reported

section Row

variable {self : BackwardResolver} {W use q : Nat} {is pre : List Instruction} {i : Instruction}
variable {steps : List (Assignment W)} {rows : List (List (Assignment W))}

theorem DataForm.quiet {port : IdaPort} (form : DataForm port W i steps) (key : MemoryKey)
    (funcEa : Nat) : memoryFinding port i key funcEa = none := by
  cases form with
  | call _ unflagged => exact memoryFinding_quiet (fun op member _ => unflagged op member) key
  | movImm _ pair dest => exact memoryFinding_dest pair dest.kind
  | movReg _ pair dest => exact memoryFinding_dest pair dest.kind
  | load _ pair dest => exact memoryFinding_dest pair dest.kind
  | addImm _ pair dest => exact memoryFinding_dest pair dest.kind
  | subImm _ pair dest => exact memoryFinding_dest pair dest.kind
  | lea _ pair dest => exact memoryFinding_dest pair dest.kind
  | zero _ pair dest => exact memoryFinding_dest pair dest.kind

/-- What an instruction makes of the reports in front of it. -/
def Makes (self : BackwardResolver) (W q funcEa : Nat) (pre : List Instruction) (i : Instruction)
    (steps : List (Assignment W)) : Prop :=
  (registerFinding self.port i q = none ∧
      ∀ B : Nat → Origin Outside (BitVec W), traced steps B q = B q) ∨
    ∃ f, registerFinding self.port i q = some f ∧ ∀ B : Nat → Origin Outside (BitVec W),
      Reports self W pre.length i.ea (fun q => Reported self.port (B q)) →
      Yields self.port pre.length (Reported self.port (traced steps B q)) fun loops depth =>
        self.settle (self.callbacks loops depth) i funcEa f

theorem makes_call (builtin : self.registry = defaultRegistry) (call : i.isCall)
    (unflagged : ∀ op ∈ i.operands, i.isWritten op.number = false) (funcEa : Nat) :
    Makes self W q funcEa pre i (callSteps self.port W i.ea) := by
  have none : registerOperandFinding self.port i q i.operands = Option.none :=
    registerOperandFinding_quiet (fun op member _ => unflagged op member) q
  rw [Makes, registerFinding]
  by_cases result : self.port.returnValueReg = some q
  · have matched := findMatch_call call
    rw [← builtin] at matched
    rw [if_pos ⟨call, result⟩]
    refine Or.inr ⟨_, rfl, fun B _ => Yields.of_decides (decides_resolved matched rfl) ?_⟩
    simp [callSteps, result, traced, Step.trace, Reported, Outside.answer]
  · have kept (B : Nat → Origin Outside (BitVec W)) :
        traced (callSteps self.port W i.ea) B q =
          if isCallClobbered self.port q then .lost else B q := by
      cases known : self.port.returnValueReg with
      | none => simp [callSteps, known, traced, Step.trace]
      | some r =>
          have other : q ≠ r := fun same => result (by rw [known, same])
          simp [callSteps, known, traced, Step.trace, other]
    rw [if_neg fun both => result both.2]
    cases clobbered : isCallClobbered self.port q with
    | true =>
        refine Or.inr ⟨_, if_pos ⟨call, rfl⟩, fun B _ => ?_⟩
        refine Yields.of_decides (decides_report self i funcEa _) ?_
        rw [kept B, clobbered]
        rfl
    | false =>
        refine Or.inl ⟨?_, fun B => ?_⟩
        · rw [if_neg (by simp), none]
        · rw [kept B, clobbered]
          rfl

/-- An instruction with a destination makes a report for this register only. -/
theorem makes_dest {a b : Operand} {d funcEa : Nat} (notCall : i.isCall = false)
    (pair : Pair i a b true false) (dest : RegOperand self.port W a d)
    (whole : WholeReg self.port W q) (other : q ≠ d → ∀ B : Nat → Origin Outside (BitVec W),
      traced steps B q = B q)
    (settles : ∀ B : Nat → Origin Outside (BitVec W),
      Reports self W pre.length i.ea (fun q => Reported self.port (B q)) →
      Yields self.port pre.length (Reported self.port (traced steps B d)) fun loops depth =>
        self.settle (self.callbacks loops depth) i funcEa (.interpret 0)) :
    Makes self W q funcEa pre i steps := by
  have finding := registerFinding_dest notCall pair dest whole
  by_cases same : d = q
  · subst same
    rw [if_pos rfl] at finding
    exact Or.inr ⟨_, finding, settles⟩
  · rw [if_neg same] at finding
    exact Or.inl ⟨finding, other (Ne.symm same)⟩

theorem DataForm.makes (builtin : self.registry = defaultRegistry) (positive : 0 < W)
    (le : W ≤ 64) (form : DataForm self.port W i steps)
    (line : StraightLine self.port pre i.ea)
    (quiet : ∀ j ∈ pre, ∀ key, memoryFinding self.port j key line.funcEa = none)
    (whole : WholeReg self.port W q) : Makes self W q line.funcEa pre i steps := by
  cases form with
  | call call unflagged => exact makes_call builtin call unflagged line.funcEa
  | @movImm a b d n mnem pair dest imm =>
      refine makes_dest (not_isCall_of_mnem mnem (by decide)) pair dest whole
        (fun other B => Function.update_of_ne other _ _) fun B _ => ?_
      have decides := decides_movImm builtin mnem pair dest.kind imm.kind imm.value line.funcEa
      have here : traced [Step.const d (BitVec.ofInt W n)] B d = .number (BitVec.ofInt W n) :=
        Function.update_self _ _ _
      rw [here]
      refine Yields.of_decides decides ⟨.int, ?_⟩
      rw [(holds_ofInt imm.nonneg imm.lt .int) _ _ rfl]
  | @movReg a b d s mnem pair dest src =>
      have move : i.mnem ∈ moveMnemonics := by simp [mnem, moveMnemonics]
      refine makes_dest (not_isCall_of_move move) pair dest whole
        (fun other B => Function.update_of_ne other _ _) fun B reports => ?_
      have here : traced [Step.shift true d s (0 : BitVec W)] B d = B s :=
        (Function.update_self _ _ _).trans (B s).shift_zero
      rw [here]
      exact reports.copied builtin move pair dest.kind src.kind src.reg src.whole
        fun v value => value
  | @load a b d addr mnem pair dest src width =>
      have move : i.mnem ∈ moveMnemonics := by simp [mnem, moveMnemonics]
      refine makes_dest (not_isCall_of_move move) pair dest whole
        (fun other B => Function.update_of_ne other _ _) fun B _ => ?_
      have here : traced [Step.fresh d (.cell addr b.dtypeSize)] B d =
          .drifted (.cell addr b.dtypeSize) (0 : BitVec W) := Function.update_self _ _ _
      rw [here]
      exact Yields.loaded builtin line quiet move pair dest.kind src rfl
  | @addImm a b d n mnem pair dest imm =>
      refine makes_dest (not_isCall_of_mnem mnem (by decide)) pair dest whole
        (fun other B => Function.update_of_ne other _ _) fun B reports => ?_
      refine reports.added builtin (Or.inl mnem) pair dest imm (if_pos mnem) fun v value => ?_
      simpa [traced, Step.trace] using Reported.add dest.width positive le value n
  | @subImm a b d n mnem pair dest imm =>
      have other : i.mnem ≠ "add" := by
        rw [mnem]
        decide
      refine makes_dest (not_isCall_of_mnem mnem (by decide)) pair dest whole
        (fun other B => Function.update_of_ne other _ _) fun B reports => ?_
      refine reports.added builtin (Or.inr mnem) pair dest imm (if_neg other) fun v value => ?_
      simpa [traced, Step.trace] using Reported.add dest.width positive le value (-n)
  | @lea a b d s mnem pair dest kind base whole' noIndex =>
      have matched := findMatch_leaDispl mnem pair dest.kind kind (by simp [base]) noIndex
      rw [← builtin] at matched
      refine makes_dest (not_isCall_of_mnem mnem (by decide)) pair dest whole
        (fun other B => Function.update_of_ne other _ _) fun B reports => ?_
      refine Reports.relay (f := fun v => leaValue v b.disp a.dtypeSize) reports whole'
        matched ?_ fun v value => ?_
      · rw [leaRegDispl_extract pair.operand_zero pair.operand_one, base]
      · simpa [traced, Step.trace] using Reported.lea dest.width positive le value b.disp
  | @zero a b d mnem pair dest src =>
      have same : a.reg = b.reg := dest.reg.trans src.reg.symm
      have matched := findMatch_zero (Or.inl mnem) pair dest.kind src.kind same
      rw [← builtin] at matched
      refine makes_dest (not_isCall_of_mnem mnem (by decide)) pair dest whole
        (fun other B => Function.update_of_ne other _ _) fun B _ => ?_
      have here : traced [Step.const d (0 : BitVec W)] B d = .number 0 :=
        Function.update_self _ _ _
      rw [here]
      exact Yields.of_decides (decides_resolved matched rfl) ⟨.int, by simp⟩

theorem dataChain (builtin : self.registry = defaultRegistry) (positive : 0 < W) (le : W ≤ 64) :
    Chain self W (DataForm self.port W) traced (Reported self.port) .lost where
  unset := rfl
  each := by
    intro pre rows i steps early form line q whole
    refine form.makes builtin positive le line (fun j member key => ?_) whole
    rcases exists_of_forall₂ early member with ⟨steps', -, form'⟩
    exact form'.quiet key line.funcEa

/-- With enough budget, a register is reported as it comes out of the row. -/
theorem DataRow.reports (builtin : self.registry = defaultRegistry) (positive : 0 < W)
    (le : W ≤ 64) (row : DataRow self.port W is rows) (line : StraightLine self.port is use)
    (whole : WholeReg self.port W q) :
    Yields self.port is.length (Reported self.port (origin rows.flatten q)) fun loops depth =>
      (self.callbacks loops depth).resolveRegister (some q) use := by
  have reports := (dataChain builtin positive le).reports row line q whole
  rw [origin, traced, List.foldl_flatten]
  exact reports

/-- A known answer of any limits is as the register comes out of the row. -/
theorem DataRow.known (builtin : self.registry = defaultRegistry) (positive : 0 < W)
    (le : W ≤ 64) (row : DataRow self.port W is rows) (line : StraightLine self.port is use)
    (whole : WholeReg self.port W q) {v : ValueLattice} (known : v.isKnown)
    (answered : self.answer (.register q use) = some v) :
    Reported self.port (origin rows.flatten q) v := by
  refine known_of_yields (n := is.length) builtin (fun steps => ?_) known answered
  exact @DataRow.reports (self.withLimits steps self.maxBlocks) W use q is rows builtin positive le
    row line whole

end Row

/-! ## What the answers denote -/

/-- The static image maps the word. -/
def Outside.Mapped (port : IdaPort) : Outside → Prop
  | ret _ => True
  | cell addr size => (port.readInt addr size).isSome

/-- The code reads what the image has; the calls return anything. -/
def ReadsImage (port : IdaPort) {W : Nat} (v : Outside → BitVec W) : Prop :=
  ∀ addr size raw, port.readInt addr size = some raw → v (.cell addr size) = BitVec.ofInt W raw

/-- The answer is right about the word: the symbol of a call stands for what the call returned,
and a memory reference for the number it shows. -/
def Denotes {W : Nat} (v : Outside → BitVec W) (answer : ValueLattice) (x : BitVec W) : Prop :=
  (∀ c : Nat, answer = .symbolic ("ret(" ++ hex c ++ ")") → x = v (.ret c)) ∧
    ∀ addr d k, answer = .memoryRef addr (.concrete d k) → ∃ n, d = .int n ∧ x = BitVec.ofInt W n

section Denotes

variable {port : IdaPort} {W : Nat} {v : Outside → BitVec W} {x : BitVec W}

theorem denotes_of_unknown {u : ValueLattice} (unknown : u.isKnown = false) : Denotes v u x := by
  rcases ValueLattice.isKnown_eq_false unknown with ⟨reason, detail, rfl⟩
  constructor <;> simp

theorem denotes_answer_iff (image : ReadsImage port v) {s : Outside} (mapped : s.Mapped port) :
    Denotes v (s.answer port) x ↔ x = v s := by
  cases s with
  | ret ea =>
      constructor
      · intro denotes
        exact denotes.1 ea rfl
      · intro same
        refine ⟨fun c text => ?_, by simp [Outside.answer]⟩
        have texts := congrArg String.toList (ValueLattice.symbolic.inj text)
        simp only [String.toList_append] at texts
        have digits := List.append_cancel_left (List.append_cancel_right texts)
        rw [same, hex_injective (String.toList_injective digits)]
  | cell addr size =>
      rcases Option.isSome_iff_exists.mp mapped with ⟨raw, read⟩
      have answered : Outside.answer port (.cell addr size) =
          .memoryRef addr (.concrete (.int raw) .int) := by
        rw [Outside.answer, dereferenced, read]
      rw [answered, image addr size raw read]
      constructor
      · intro denotes
        rcases denotes.2 _ _ _ rfl with ⟨n, same, value⟩
        cases same
        exact value
      · intro same
        refine ⟨by simp, fun addr' d k shown => ?_⟩
        cases shown
        exact ⟨raw, rfl, same⟩

/-- A reference to a cell that is not mapped shows no number. -/
theorem denotes_unmapped {s : Outside} (unmapped : ¬ s.Mapped port) :
    Denotes v (s.answer port) x := by
  cases s with
  | ret ea => exact (unmapped trivial).elim
  | cell addr size =>
      have none : port.readInt addr size = none := by simpa [Outside.Mapped] using unmapped
      rw [Outside.answer, dereferenced, none]
      constructor <;> simp

end Denotes

/-- In a straight line, symbols and memory references are right about the register, whatever the
calls return, if and only if the register is no returned or mapped word to which copies and
additions have added up to something else than 0. -/
theorem denotations_hold_iff {self : BackwardResolver} (builtin : self.registry = defaultRegistry)
    {W use q : Nat} (positive : 0 < W) (le : W ≤ 64) {is : List Instruction}
    {rows : List (List (Assignment W))} (row : DataRow self.port W is rows)
    (line : StraightLine self.port is use) (whole : WholeReg self.port W q) :
    (∀ steps blocks u, (self.withLimits steps blocks).resolveRegister q use = some u →
      ∀ v w w', ReadsImage self.port v → Run v rows.flatten w w' → Denotes v u (w' q)) ↔
      ∀ s δ, origin rows.flatten q = .drifted s δ → s.Mapped self.port → δ = 0 := by
  constructor
  · intro right s δ from' mapped
    let enough := self.withLimits (2 * (is.length + 1)) self.maxBlocks
    have yields := @DataRow.reports enough W use q is rows builtin positive le row line whole
    rcases yields.answer (Nat.le_refl _) with ⟨u, reported, answered⟩
    rw [from'] at reported
    obtain rfl : u = s.answer self.port := reported
    let v : Outside → BitVec W := fun
      | .ret _ => 0
      | .cell addr size => ((self.port.readInt addr size).map (BitVec.ofInt W)).getD 0
    have image : ReadsImage self.port v := by
      intro addr size raw read
      simp [v, read]
    rcases exists_run v rows.flatten fun _ => 0 with ⟨w', run⟩
    have word := run_tells run q
    rw [from'] at word
    have same := (denotes_answer_iff image mapped).mp (right _ _ _ answered v _ w' image run)
    rw [same] at word
    exact left_eq_add.mp word
  · intro undrifted steps blocks u answered v w w' image run
    cases known : u.isKnown with
    | false => exact denotes_of_unknown known
    | true =>
        have word := run_tells run q
        have reported := @DataRow.known (self.withLimits steps blocks) W use q is rows builtin
          positive le row line whole u known answered
        cases from' : origin rows.flatten q with
        | lost =>
            rw [from'] at reported
            have unknown : u.isKnown = false := reported
            rw [known] at unknown
            cases unknown
        | number x =>
            rw [from'] at reported
            rcases reported with ⟨k, rfl⟩
            constructor <;> simp
        | drifted s δ =>
            rw [from'] at reported word
            obtain rfl : u = s.answer self.port := reported
            by_cases mapped : s.Mapped self.port
            · rw [undrifted s δ from' mapped] at word
              have same : w' q = v s + 0 := word
              rw [denotes_answer_iff image mapped, same, add_zero]
            · exact denotes_unmapped mapped

/-! ## A result that was added to -/

namespace BumpedResult

def call : Instruction := FakeIdaPort.jump 0x401000 "call" 5 0x402000

def bump : Instruction :=
  FakeIdaPort.insn 0x401005 "add" 3 [FakeIdaPort.reg 0 0, FakeIdaPort.imm 1 4]

def back : Instruction := FakeIdaPort.insn 0x401008 "ret" 1 []

def port : IdaPort := FakeIdaPort.toPort
  { pointerSize := 4
    instructions := [call, bump, back]
    funcBounds := [(0x401000, 0x401009)]
    blocks := [(0x401000, [⟨0x401000, 0x401009, [], []⟩])] }

def graph : ConsistentCfg port 0x401000 where
  tile _ := [call, bump, back]
  entry := ⟨0x401000, 0x401009, [], []⟩
  entry_mem := by decide
  entry_startEa := rfl
  nonempty := by decide
  disjoint := by decide
  converse := by decide
  tiled := by decide
  decoded := by decide
  heads := by decide
  owner := by decide

def line : StraightLine port [call, bump] 0x401008 where
  funcEa := 0x401000
  graph := graph
  source := by decide
  lo := by decide
  hi := by decide
  executed := by decide

def resolver : BackwardResolver where
  port := port
  registry := defaultRegistry

def steps : List (List (Assignment 32)) := [callSteps port 32 0x401000, [.shift true 0 0 4]]

theorem row : DataRow port 32 [call, bump] steps := by
  have whole : WholeReg port 32 0 := FakeIdaPort.wholeReg rfl (by decide)
  have pair : Pair bump (FakeIdaPort.reg 0 0) (FakeIdaPort.imm 1 4) true false :=
    ⟨rfl, rfl, rfl, rfl, rfl⟩
  refine .cons (.call (by decide) (by decide)) (.cons ?_ .nil)
  exact .addImm rfl pair ⟨rfl, rfl, rfl, whole⟩ ⟨rfl, rfl, by decide, by decide⟩

theorem drifted : origin steps.flatten 0 = .drifted (.ret 0x401000) 4 := by decide

/-- The symbol of the call is reported, but the register holds four more than what the call
returned. -/
theorem result_reported_undrifted :
    resolver.resolveRegister 0 0x401008 = some (.symbolic "ret(0x401000)") ∧
      ∃ (v : Outside → BitVec 32) (w w' : Nat → BitVec 32), ReadsImage port v ∧
        Run v steps.flatten w w' ∧ w' 0 ≠ v (.ret 0x401000) := by
  have image : ReadsImage port fun _ : Outside => (0 : BitVec 32) := by
    intro addr size raw read
    cases size with
    | zero =>
        cases read
        rfl
    | succ size => cases read
  rcases exists_run (fun _ => (0 : BitVec 32)) steps.flatten fun _ => 0 with ⟨w', run⟩
  refine ⟨by decide, _, _, w', image, run, ?_⟩
  have word := run_tells run 0
  rw [drifted] at word
  have four : w' 0 = 4 := word
  rw [four]
  decide

theorem denotations_hold_iff_bumped :
    ¬ ∀ n blocks u, (resolver.withLimits n blocks).resolveRegister 0 0x401008 = some u →
      ∀ (v : Outside → BitVec 32) w w', ReadsImage port v → Run v steps.flatten w w' →
        Denotes v u (w' 0) := by
  intro right
  have undrifted := (@denotations_hold_iff resolver rfl _ _ _ (by decide) (by decide) _ _ row line
    (FakeIdaPort.wholeReg rfl (by decide))).mp right
  exact absurd (undrifted _ _ drifted trivial) (by decide)

end BumpedResult

end IDAnalysister
