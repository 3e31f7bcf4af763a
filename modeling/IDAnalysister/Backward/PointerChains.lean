import IDAnalysister.Adapters.FakePort
import IDAnalysister.Backward.Chains

/-!
# Chains of pointer loads

`mov r, [a0]` and then `mov r, [r+d]`, any number of times: what `resolve_register` reports
for `r` behind them. A load is reported as a reference with the number found there, and
`_fallback_dereference` takes numbers only as an address, so the first load through `r` ends
the walk (`PointerChain.followed_iff`).
-/

namespace IDAnalysister

open Effect Prog

/-! ## The instructions and the image -/

/-- `mov r, [..]` of a pointer, from a memory operand of one static location. -/
structure PointerLoad (port : IdaPort) (r : Nat) (i : Instruction) (a b : Operand) : Prop where
  mnem : i.mnem = "mov"
  pair : Pair i a b true false
  dest : a.kind = .reg
  reg : a.reg = some r
  destSize : a.dtypeSize = port.pointerSize
  size : b.dtypeSize = port.pointerSize
  noIndex : b.hasIndex = false
  noSegment : b.hasSegment = false

/-- The row `mov r, [a0]; mov r, [r+d1]; ..; mov r, [r+dn]`. -/
inductive PointerChain (port : IdaPort) (r : Nat) (a0 : Int) : List Instruction → List Int → Prop
  | start {i : Instruction} {a b : Operand} (load : PointerLoad port r i a b)
      (direct : b.kind = .memDirect) (addr : b.addr = some a0) : PointerChain port r a0 [i] []
  | hop {is : List Instruction} {ds : List Int} {i : Instruction} {a b : Operand} {d : Int}
      (chain : PointerChain port r a0 is ds) (load : PointerLoad port r i a b)
      (based : b.kind = .memPhrase ∨ b.kind = .memDispl) (base : b.reg = some r)
      (disp : b.disp = d) : PointerChain port r a0 (is ++ [i]) (ds ++ [d])

/-- The image maps every address of the chain; the last one is `q` and holds the word `w`. -/
inductive Reaches (port : IdaPort) (a0 : Int) : List Int → Int → Int → Prop
  | start {w : Int} (mapped : port.readInt a0 port.pointerSize = some w) : Reaches port a0 [] a0 w
  | hop {ds : List Int} {d q w w' : Int} (before : Reaches port a0 ds q w)
      (mapped : port.readInt (w + d) port.pointerSize = some w') :
      Reaches port a0 (ds ++ [d]) (w + d) w'

theorem PointerChain.nil {port : IdaPort} {r : Nat} {a0 : Int} {is : List Instruction}
    (chain : PointerChain port r a0 is []) : ∃ i a b, is = [i] ∧ PointerLoad port r i a b ∧
      b.kind = .memDirect ∧ b.addr = some a0 := by
  generalize none : ([] : List Int) = ds at chain
  cases chain with
  | start load direct addr => exact ⟨_, _, _, rfl, load, direct, addr⟩
  | hop => simp at none

theorem Reaches.nil {port : IdaPort} {a0 q w : Int} (reached : Reaches port a0 [] q w) :
    q = a0 ∧ port.readInt a0 port.pointerSize = some w := by
  generalize none : ([] : List Int) = ds at reached
  cases reached with
  | start mapped => exact ⟨rfl, mapped⟩
  | hop => simp at none

/-- With enough budget, the register is reported as the word `w` loaded from `q`. -/
def ChainFollowed (self : BackwardResolver) (r use : Nat) (q w : Int) : Prop :=
  ∃ enough, ∀ steps blocks, enough ≤ steps → enough ≤ blocks →
    (self.withLimits steps blocks).resolveRegister r use =
      some (.memoryRef q (.concrete (.int w) .int))

/-! ## One load -/

section Load

variable {port : IdaPort} {r : Nat} {i : Instruction} {a b : Operand}

/-- A load is no call. -/
theorem PointerLoad.notCall (load : PointerLoad port r i a b) : i.isCall = false := by
  rw [Instruction.isCall, load.mnem]
  decide

/-- A load defines no cell. -/
theorem PointerLoad.quiet (load : PointerLoad port r i a b) (funcEa : Nat) (key : MemoryKey) :
    memoryFinding port i key funcEa = none :=
  memoryFinding_dest load.pair load.dest

theorem isMemory_of_based (based : b.kind = .memPhrase ∨ b.kind = .memDispl) :
    b.isMemory = true := by
  rcases based with kind | kind <;> simp [Operand.isMemory, kind]

theorem PointerLoad.addressed (load : PointerLoad port r i a b) :
    unsupportedAddressShape b = none := by
  have noIndex : b.indexReg = none := by simpa [Operand.hasIndex] using load.noIndex
  simp [unsupportedAddressShape, noIndex, load.noSegment]

/-- A load from a fixed address asks for that cell. -/
theorem PointerLoad.asks_direct (load : PointerLoad port r i a b) (direct : b.kind = .memDirect)
    {a0 : Int} (addr : b.addr = some a0) (fe : Option Nat) :
    movRegMem.extract port fe i 0 =
      .call (.resolveMemory none a0 i.ea port.pointerSize) fun v => Extraction.resolved v := by
  rw [movRegMem_extract load.pair.operand_one, loadMemoryOperand, load.addressed]
  simp only [direct, dif_pos, addr, Option.get_some, load.size, ite_self]
  rfl

/-- A load through a register asks for the cell at the base plus displacement. -/
theorem PointerLoad.asks_based (load : PointerLoad port r i a b)
    (based : b.kind = .memPhrase ∨ b.kind = .memDispl) (base : b.reg = some r) (fe : Option Nat) :
    movRegMem.extract port fe i 0 =
      .call (.resolveMemory (some r) b.disp i.ea port.pointerSize) fun v =>
        Extraction.resolved v := by
  have notDirect : b.kind ≠ .memDirect := by rcases based with kind | kind <;> simp [kind]
  rw [movRegMem_extract load.pair.operand_one, loadMemoryOperand, load.addressed]
  simp only [notDirect, dif_neg, not_false_eq_true, based, if_true, base, load.size, ite_self]
  rfl

/-- Whether a load defines the register is a matter of the port's views of the register. -/
theorem PointerLoad.finding (load : PointerLoad port r i a b) :
    (∀ {j a' b'}, PointerLoad port r j a' b' → registerFinding port j r = none) ∨
      registerFinding port i r = some (.interpret 0) ∨
      ∃ reason detail, registerFinding port i r = some (.report (.unknown reason detail)) := by
  have written {j : Instruction} {a' b' : Operand} (load' : PointerLoad port r j a' b') :
      registerFinding port j r = registerOperandFinding port j r [a'] := by
    have skipped : registerOperandFinding port j r [b'] = none := by
      simp [registerOperandFinding, load'.pair.second, load'.pair.flagB]
    rw [registerFinding_of_notCall load'.notCall, load'.pair.operands, registerOperandFinding,
      skipped, registerOperandFinding]
    rfl
  cases query : port.registerView r 0 with
  | none =>
      right; left
      simp [written load, registerOperandFinding, load.dest, load.pair.first, load.pair.flagA,
        load.reg, query]
  | some queried =>
      cases write : port.registerView r port.pointerSize with
      | none =>
          right; left
          simp [written load, registerOperandFinding, load.dest, load.pair.first, load.pair.flagA,
            load.reg, load.destSize, query, write]
      | some view =>
          by_cases same : view.parent = queried.parent
          · right
            rw [written load]
            simp only [registerOperandFinding, load.dest, load.pair.first, load.pair.flagA,
              load.reg, load.destSize, query, write, Option.bind_some, same, ne_eq,
              not_true_eq_false, if_false, and_self, if_true]
            split
            · exact Or.inl rfl
            · exact Or.inr ⟨_, _, rfl⟩
          · left
            intro j a' b' load'
            simp [written load', registerOperandFinding, load'.dest, load'.pair.first,
              load'.pair.flagA, load'.reg, load'.destSize, query, write, same]

end Load

theorem PointerChain.loads {port : IdaPort} {r : Nat} {a0 : Int} {is : List Instruction}
    {ds : List Int} (chain : PointerChain port r a0 is ds) :
    ∀ j ∈ is, ∃ a b, PointerLoad port r j a b := by
  induction chain with
  | start load direct addr =>
      intro j member
      rw [List.mem_singleton.mp member]
      exact ⟨_, _, load⟩
  | hop chain load based base disp ih =>
      intro j member
      rcases List.mem_append.mp member with earlier | last
      · exact ih j earlier
      · rw [List.mem_singleton.mp last]
        exact ⟨_, _, load⟩

/-! ## A chain -/

/-- With enough budget and nesting, the query returns one of the values. -/
def Concludes (port : IdaPort) (P : ValueLattice → Prop) (query : Nat → Nat → Query ValueLattice) :
    Prop :=
  ∃ v cost enough, P v ∧ cost ≤ enough ∧ ∀ loops depth (b : ResolutionBudget), enough < loops →
    enough < depth → b.stepsUsed + enough ≤ b.maxSteps →
      attempt (handler port) none (query loops depth) b = (some v, b.spend cost)

section Concludes

variable {self : BackwardResolver} {r use : Nat} {i : Instruction} {a b : Operand}
variable {pre is : List Instruction} {P Q : ValueLattice → Prop}

/-- A weaker condition on the answer will do. -/
theorem Concludes.imp {query : Nat → Nat → Query ValueLattice}
    (concluded : Concludes self.port P query) (weaker : ∀ v, P v → Q v) :
    Concludes self.port Q query := by
  rcases concluded with ⟨v, cost, enough, value, le, asked⟩
  exact ⟨v, cost, enough, weaker v value, le, asked⟩

theorem Yields.concludes {n : Nat} {query : Nat → Nat → Query ValueLattice}
    (yields : Yields self.port n P query) : Concludes self.port P query := by
  rcases yields with ⟨v, cost, value, le, asked⟩
  refine ⟨v, cost, 2 * (n + 1), value, le, ?_⟩
  intro loops depth b deep nested left
  exact asked loops depth b (by omega) (by omega) left

/-- The register behind a row whose last instruction defines it. -/
theorem Concludes.behind {f : Finding} (line : StraightLine self.port (pre ++ [i]) use)
    (found : registerFinding self.port i r = some f)
    (settled : Concludes self.port P fun loops depth =>
      self.settle (self.callbacks loops depth) i line.funcEa f) :
    Concludes self.port P fun loops depth =>
      (self.callbacks loops depth).resolveRegister (some r) use := by
  rcases settled with ⟨v, cost, enough, value, le, asked⟩
  refine ⟨v, 2 + cost, enough + 2, value, by omega, ?_⟩
  intro loops depth b deep nested left
  cases depth with
  | zero => omega
  | succ depth =>
      have clear : ∀ j ∈ ([] : List Instruction), registerFinding self.port j r = none := by simp
      rw [← ResolutionBudget.spend_spend]
      refine line.registerImpl_found rfl found clear (by simp only [List.length_nil]; omega)
        (by simp only [List.length_nil]; omega) (asked loops depth _ (by omega) (by omega) ?_)
      simp only [ResolutionBudget.spend, List.length_nil]
      omega

/-- A load through a register that no number is reported for. -/
theorem Concludes.loadThrough (builtin : self.registry = defaultRegistry)
    (line : StraightLine self.port pre i.ea)
    (quiet : ∀ j ∈ pre, ∀ key, memoryFinding self.port j key line.funcEa = none)
    (load : PointerLoad self.port r i a b) (based : b.kind = .memPhrase ∨ b.kind = .memDispl)
    (base : b.reg = some r)
    (settled : Concludes self.port (fun v => v.intOf = none) fun loops depth =>
      (self.callbacks loops depth).resolveRegister (some r) i.ea) :
    Concludes self.port (fun v => v = .unknown' .noDefinitionFound) fun loops depth =>
      self.settle (self.callbacks loops depth) i line.funcEa (.interpret 0) := by
  rcases settled with ⟨v, cost, enough, silent, le, asked⟩
  have matched := findMatch_movRegMem load.mnem load.pair load.dest (isMemory_of_based based)
  rw [← builtin] at matched
  refine ⟨_, pre.length + 1 + cost, pre.length + 1 + enough, rfl, by omega, ?_⟩
  intro loops depth b' deep nested left
  refine attempt_relay (f := fun v => v) matched (load.asks_based based base _) ?_
  cases depth with
  | zero => omega
  | succ depth =>
      have walked := @StraightLine.memoryImpl_clear self pre i.ea (self.callbacks loops depth) loops
        b' line (some r) b.disp self.port.pointerSize (fun j member => quiet j member _) (by omega)
        (by omega)
      have based := asked loops (depth + 1) (b'.spend (pre.length + 1)) (by omega) (by omega)
        (by simp only [ResolutionBudget.spend]; omega)
      refine (walked.trans (attempt_bind based)).trans ?_
      rw [silent, ResolutionBudget.spend_spend]
      rfl

/-- The register behind a row of loads: it is unknown, or the last load is reported. -/
theorem Concludes.last (line : StraightLine self.port (pre ++ [i]) use)
    (loads : ∀ j ∈ pre ++ [i], ∃ a b, PointerLoad self.port r j a b)
    (unknown : ∀ reason detail, P (.unknown reason detail))
    (loaded : Concludes self.port P fun loops depth =>
      self.settle (self.callbacks loops depth) i line.funcEa (.interpret 0)) :
    Concludes self.port P fun loops depth =>
      (self.callbacks loops depth).resolveRegister (some r) use := by
  rcases loads i (by simp) with ⟨a, b, load⟩
  rcases load.finding with missed | found | ⟨reason, detail, reported⟩
  · have clear : ∀ j ∈ pre ++ [i], registerFinding self.port j r = none := by
      intro j member
      rcases loads j member with ⟨a', b', load'⟩
      exact missed load'
    refine ⟨.unknown' .noDefinitionFound, (pre ++ [i]).length + 1, (pre ++ [i]).length + 1,
      unknown _ _, Nat.le_refl _, ?_⟩
    intro loops depth budget deep nested left
    cases depth with
    | zero => omega
    | succ depth => exact line.registerImpl_clear clear (by omega) left
  · exact loaded.behind line found
  · refine Concludes.behind line reported
      ⟨.unknown reason detail, 0, 0, unknown reason detail, Nat.le_refl 0, ?_⟩
    intro loops depth budget deep nested left
    rfl

/-- A load from the static address. -/
theorem PointerLoad.concludes (builtin : self.registry = defaultRegistry)
    (load : PointerLoad self.port r i a b) (direct : b.kind = .memDirect) {a0 : Int}
    (addr : b.addr = some a0) (line : StraightLine self.port [] i.ea) :
    Concludes self.port (fun v => v = dereferenced self.port a0 self.port.pointerSize)
      fun loops depth =>
        self.settle (self.callbacks loops depth) i line.funcEa (.interpret 0) := by
  have isMemory : b.isMemory = true := by simp [Operand.isMemory, direct]
  have matched := findMatch_movRegMem load.mnem load.pair load.dest isMemory
  rw [← builtin] at matched
  exact Yields.concludes (Yields.load (f := fun v => v) line (by simp) matched
    (load.asks_direct direct addr _) rfl)

/-- What is reported for the register behind the chain is no number, and behind a load through
the register it is unknown. -/
theorem PointerChain.concludes (builtin : self.registry = defaultRegistry) {a0 : Int}
    {ds : List Int} (chain : PointerChain self.port r a0 is ds)
    (line : StraightLine self.port is use) :
    Concludes self.port (fun v => v.intOf = none ∧ (ds ≠ [] → v.isKnown = false))
      fun loops depth => (self.callbacks loops depth).resolveRegister (some r) use := by
  induction chain generalizing use with
  | @start i a b load direct addr =>
      have split : [i] = [] ++ i :: [] := rfl
      have loaded := load.concludes builtin direct addr (line.upTo split)
      refine @Concludes.last self r use i [] _ line (PointerChain.start load direct addr).loads
        (fun _ _ => ⟨rfl, fun _ => rfl⟩) (loaded.imp fun v same => ?_)
      rw [same, dereferenced]
      cases self.port.readInt a0 self.port.pointerSize with
      | none => exact ⟨rfl, fun hops => (hops rfl).elim⟩
      | some w => exact ⟨rfl, fun hops => (hops rfl).elim⟩
  | @hop pre ds i a b d chain load based base disp ih =>
      have quiet : ∀ j ∈ pre, ∀ key, memoryFinding self.port j key line.funcEa = none := by
        intro j member key
        rcases chain.loads j member with ⟨a', b', load'⟩
        exact load'.quiet line.funcEa key
      have split : pre ++ [i] = pre ++ i :: [] := rfl
      have earlier := ih (line.upTo split)
      have through := Concludes.loadThrough builtin (line.upTo split) quiet load based base
        (earlier.imp fun v holds => holds.1)
      refine Concludes.last line (PointerChain.hop chain load based base disp).loads
        (fun _ _ => ⟨rfl, fun _ => rfl⟩) (through.imp fun v unknown => ?_)
      rw [unknown]
      exact ⟨rfl, fun _ => rfl⟩

/-- With enough budget the register is answered so. -/
theorem Concludes.answer (concluded : Concludes self.port P fun loops depth =>
      (self.callbacks loops depth).resolveRegister (some r) use) :
    ∃ v enough, P v ∧ ∀ steps blocks, enough ≤ steps →
      (self.withLimits steps blocks).resolveRegister r use = some v := by
  rcases concluded with ⟨v, cost, enough, value, -, asked⟩
  refine ⟨v, enough, value, ?_⟩
  intro steps blocks le
  have same : (self.withLimits steps blocks).callbacks = self.callbacks := by
    funext loops depth
    exact callbacks_with_limits self steps blocks loops depth
  have deep : enough < (self.withLimits steps blocks).fuel := by
    simp only [BackwardResolver.fuel, BackwardResolver.withLimits]
    omega
  have ran := asked _ _ (self.withLimits steps blocks).freshBudget deep deep
    (by simpa [BackwardResolver.freshBudget, BackwardResolver.withLimits] using le)
  have program : (self.withLimits steps blocks).program (self.withLimits steps blocks).fuel
      (.register r use) = (self.callbacks (self.withLimits steps blocks).fuel
        (self.withLimits steps blocks).fuel).resolveRegister (some r) use := by
    rw [← same]
    rfl
  exact @answer_of_attempt (self.withLimits steps blocks) (.register r use) v _
    ((congrArg (attempt (handler self.port) none · _) program).trans ran)

end Concludes

/-! ## Whether a chain is followed -/

section Followed

variable {self : BackwardResolver} {r use : Nat} {a0 : Int} {is : List Instruction} {ds : List Int}

/-- Behind a load through the register, no limits make the register known. -/
theorem PointerChain.unknown (builtin : self.registry = defaultRegistry)
    (chain : PointerChain self.port r a0 is ds) (hops : ds ≠ [])
    (line : StraightLine self.port is use) {v : ValueLattice}
    (answered : self.answer (.register r use) = some v) : v.isKnown = false := by
  by_contra known
  rw [Bool.not_eq_false] at known
  rcases (chain.concludes builtin line).answer with ⟨u, enough, ⟨-, lost⟩, every⟩
  have larger := answer_withLimits (strict_of_builtin builtin)
    (Nat.le_add_right self.maxSteps enough) (Nat.le_refl self.maxBlocks) known answered
  have same := every (self.maxSteps + enough) self.maxBlocks (Nat.le_add_left _ _)
  obtain rfl := Option.some.inj (larger.symm.trans same)
  rw [lost hops] at known
  cases known

/-- A chain is followed as far as its first load. -/
theorem PointerChain.followed_iff (builtin : self.registry = defaultRegistry)
    (chain : PointerChain self.port r a0 is ds) (line : StraightLine self.port is use)
    (whole : WholeReg self.port (self.port.pointerSize * 8) r) {q w : Int}
    (reached : Reaches self.port a0 ds q w) : ChainFollowed self r use q w ↔ ds = [] := by
  constructor
  · rintro ⟨enough, every⟩
    by_contra hops
    have unknown := @PointerChain.unknown (self.withLimits enough enough) r use a0 is ds builtin
      chain hops line _ (every enough enough (Nat.le_refl _) (Nat.le_refl _))
    cases unknown
  · rintro rfl
    rcases chain.nil with ⟨i, a, b, rfl, load, direct, addr⟩
    rcases reached.nil with ⟨rfl, mapped⟩
    have dest : RegOperand self.port (self.port.pointerSize * 8) a r :=
      ⟨load.dest, load.reg, by rw [load.destSize], whole⟩
    have found := registerFinding_dest load.notCall load.pair dest whole
    rw [if_pos rfl] at found
    have split : [i] = [] ++ i :: [] := rfl
    have loaded := load.concludes builtin direct addr (line.upTo split)
    have reported := @Concludes.behind self r use i [] _ _ line found loaded
    rcases reported.answer with ⟨v, enough, same, every⟩
    refine ⟨enough, fun steps blocks le _ => ?_⟩
    rw [every steps blocks le, same, dereferenced, mapped]

/-- No chain with a load through the register is followed. -/
theorem pointer_chain_not_followed (builtin : self.registry = defaultRegistry)
    (chain : PointerChain self.port r a0 is ds) (hops : ds ≠ [])
    (line : StraightLine self.port is use) (q w : Int) :
    Reaches self.port a0 ds q w → ¬ ChainFollowed self r use q w := by
  rintro - ⟨enough, every⟩
  have unknown := @PointerChain.unknown (self.withLimits enough enough) r use a0 is ds builtin
    chain hops line _ (every enough enough (Nat.le_refl _) (Nat.le_refl _))
  cases unknown

end Followed

/-! ## A list in memory

`mov eax, [0x404000]` loads the address 0x405000 of a node, `mov eax, [eax+4]` its second word. -/

namespace NextNode

def loadHead : Instruction :=
  FakeIdaPort.insn 0x401000 "mov" 5 [FakeIdaPort.reg 0 0, FakeIdaPort.memDirect 1 0x404000]

def loadNext : Instruction :=
  FakeIdaPort.insn 0x401005 "mov" 3 [FakeIdaPort.reg 0 0, FakeIdaPort.memDispl 1 0 4]

def leave : Instruction := FakeIdaPort.insn 0x401008 "ret" 3 []

def port : IdaPort := FakeIdaPort.toPort
  { pointerSize := 4
    instructions := [loadHead, loadNext, leave]
    funcBounds := [(0x401000, 0x40100b)]
    blocks := [(0x401000, [⟨0x401000, 0x40100b, [], []⟩])]
    memory := [(0x404000, 0), (0x404001, 0x50), (0x404002, 0x40), (0x404003, 0),
      (0x405004, 7), (0x405005, 0), (0x405006, 0), (0x405007, 0)] }

def resolver : BackwardResolver := ⟨port, defaultRegistry, 200, 64⟩

def graph : ConsistentCfg port 0x401000 where
  tile _ := [loadHead, loadNext, leave]
  entry := ⟨0x401000, 0x40100b, [], []⟩
  entry_mem := by decide
  entry_startEa := rfl
  nonempty := by decide
  disjoint := by decide
  converse := by decide
  tiled := by decide
  decoded := by decide
  heads := by decide
  owner := by decide

def line : StraightLine port [loadHead, loadNext] 0x401008 where
  funcEa := 0x401000
  graph
  source := by decide
  lo := by decide
  hi := by decide
  executed := by decide

theorem chain : PointerChain port 0 0x404000 [loadHead, loadNext] [4] :=
  @PointerChain.hop port 0 0x404000 [loadHead] [] loadNext _ _ 4
    (.start ⟨rfl, ⟨rfl, rfl, rfl, by decide, by decide⟩, rfl, rfl, rfl, rfl, rfl, rfl⟩ rfl rfl)
    ⟨rfl, ⟨rfl, rfl, rfl, by decide, by decide⟩, rfl, rfl, rfl, rfl, rfl, rfl⟩ (.inr rfl) rfl rfl

theorem reached : Reaches port 0x404000 [4] 0x405004 7 :=
  @Reaches.hop port 0x404000 [] 4 0x404000 0x405000 7 (.start (by decide)) (by decide)

/-- The second word of the node is not reported, although the image holds it. -/
theorem next_lost : Reaches port 0x404000 [4] 0x405004 7 ∧
    resolver.resolveRegister 0 0x401008 = some (.unknown' .noDefinitionFound) ∧
    ¬ ChainFollowed resolver 0 0x401008 0x405004 7 := by
  refine ⟨reached, by decide, ?_⟩
  rintro ⟨enough, every⟩
  have lost := @PointerChain.unknown (resolver.withLimits enough enough) 0 0x401008 0x404000 _ _ rfl
    chain (by decide) line _ (every enough enough (Nat.le_refl _) (Nat.le_refl _))
  cases lost

/-- No budget recovers it. -/
theorem next_not_followed : ¬ ChainFollowed resolver 0 0x401008 0x405004 7 :=
  @pointer_chain_not_followed resolver 0 0x401008 0x404000 _ _ rfl chain (by decide) line 0x405004 7
    reached

end NextNode

end IDAnalysister
