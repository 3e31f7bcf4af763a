import IDAnalysister.Backward.Views

/-!
# The walk by address

Where a function has no graph, or no block of it contains the use, the register walk goes back
by address over the whole function. It does not ask whether control gets from what it meets to
the use: `linear_answers_hold_iff` says what the jumps that lead behind the reported move have
to bring.
-/

namespace IDAnalysister

open Effect Prog

/-! ## Functions without a block for the use -/

/-- `code` are the instructions of the function in the order of their addresses, and no block
contains the use. -/
structure Unplaced (port : IdaPort) (funcEa use : Nat) (code : List Instruction) : Prop where
  owner : port.getFuncStart use = some funcEa
  outside : BackwardResolver.useBlock (buildCfg port funcEa) use = none
  ordered : code.Pairwise fun i j => i.ea < j.ea ∧ i.nextEa ≤ j.ea
  sized : ∀ i ∈ code, 0 < i.size
  low : ∀ i ∈ code, funcEa ≤ i.ea
  decoded : ∀ i ∈ code, port.decodeAt i.ea = some i
  heads : ∀ ea, ea = use ∨ (∃ i ∈ code, i.ea = ea) →
    port.prevHead ea funcEa = (before code ea).getLast?.map (·.ea)

namespace Unplaced

variable {port : IdaPort} {funcEa use : Nat} {code : List Instruction}

theorem scanHeads (unplaced : Unplaced port funcEa use code) :
    Heads port funcEa (before code use) := by
  constructor
  · intro pre i post split
    have member : i ∈ before code use := by simp [split]
    have low : i.ea < use := by simpa using (List.mem_filter.mp member).2
    have ordered : (before code use).Pairwise fun i j => i.ea < j.ea :=
      (unplaced.ordered.filter _).imp fun both => both.1
    rw [unplaced.heads i.ea (Or.inr ⟨i, mem_of_before member, rfl⟩), ← before_before low.le]
    rw [split] at ordered ⊢
    rw [before_of_ordered ordered]
  · intro i member
    exact unplaced.decoded i (mem_of_before member)

theorem registerScan (unplaced : Unplaced port funcEa use code) :
    RegisterScan port (before code use) use funcEa := by
  have last := unplaced.heads use (Or.inl rfl)
  constructor
  · intro self same pre post i q loops cb budget budget' v f split found clear deep left computed
    subst same
    have known : self.matchRegisterDefinition cb q funcEa i = some (self.settle cb i funcEa f) := by
      rw [BackwardResolver.matchRegisterDefinition, found]
      rfl
    have missed : ∀ j ∈ post, self.matchRegisterDefinition cb q funcEa j = none := by
      intro j member
      rw [BackwardResolver.matchRegisterDefinition, clear j member]
      rfl
    have whole : before code use = (pre ++ i :: post) ++ [] := by rw [List.append_nil, split]
    have spent : (budget.spend 1).stepsUsed + (post.length + 1) ≤ (budget.spend 1).maxSteps := by
      simp only [ResolutionBudget.spend]
      omega
    have scanned := attempt_scanBack_found unplaced.scanHeads whole known missed deep spent
    rw [attempt_map, ResolutionBudget.spend_spend, Nat.add_comm 1, computed] at scanned
    simp only [BackwardResolver.resolveRegisterImpl, bind_eq, Query.step_bind,
      Query.funcEaFor_bind, Query.cfgFor_bind, attempt_call, handler, budget.step_spend (by omega),
      if_true, unplaced.owner, unplaced.outside, BackwardResolver.walkRegisterLinear, last, split]
    rw [attempt_bind scanned]
    rfl
  · intro self same q loops cb budget clear deep left
    subst same
    have missed : ∀ j ∈ before code use, self.matchRegisterDefinition cb q funcEa j = none := by
      intro j member
      rw [BackwardResolver.matchRegisterDefinition, clear j member]
      rfl
    have whole : before code use = before code use ++ [] := (List.append_nil _).symm
    have spent : (budget.spend 1).stepsUsed + (before code use).length ≤
        (budget.spend 1).maxSteps := by
      simp only [ResolutionBudget.spend]
      omega
    have scanned := attempt_scanBack_clear unplaced.scanHeads whole missed deep.le spent
    simp only [BackwardResolver.resolveRegisterImpl, bind_eq, Query.step_bind,
      Query.funcEaFor_bind, Query.cfgFor_bind, attempt_call, handler, budget.step_spend (by omega),
      if_true, unplaced.owner, unplaced.outside, BackwardResolver.walkRegisterLinear, last]
    rw [attempt_bind scanned, ResolutionBudget.spend_spend, Nat.add_comm 1]
    rfl

end Unplaced

/-! ## What the code does -/

namespace Instruction

/-- Control may go on at the next address. -/
def FallsThrough (i : Instruction) : Prop := i.mnem ≠ "jmp" ∧ startsWith i.mnem "ret" = false

instance (i : Instruction) : Decidable i.FallsThrough :=
  inferInstanceAs (Decidable (_ ∧ _))

/-- Control may jump to the address that an operand names or, where none does, to one of those
that are computed. -/
inductive JumpsTo (computed : Instruction → List Nat) (i : Instruction) : Nat → Prop
  | named {op : Operand} {ea : Nat} :
    startsWith i.mnem "j" → op ∈ i.operands → op.addr = some (ea : Int) → JumpsTo computed i ea
  | computed {ea : Nat} :
    startsWith i.mnem "j" → (∀ op ∈ i.operands, op.addr = none) → ea ∈ computed i →
    JumpsTo computed i ea

theorem JumpsTo.mnem {computed : Instruction → List Nat} {i : Instruction} {ea : Nat}
    (jumps : i.JumpsTo computed ea) : startsWith i.mnem "j" := by
  cases jumps with
  | named starts => exact starts
  | computed starts => exact starts

end Instruction

/-- The bits that a register operand of `size` bytes names, as the port describes them. A
register it does not describe is taken for one of `W` bits of its own. -/
def namedView (port : IdaPort) (W r size : Nat) : RegisterView :=
  (port.registerView r size).getD
    { parent := r, bitOffset := 0, bitSize := W, parentBitSize := W, writeDefinesParent := true }

/-- `mov register, n`, with the view that is written. The port describes this register if it
describes the queried one. -/
inductive MovNamed (port : IdaPort) (W q : Nat) (i : Instruction) : RegisterView → Nat → Prop
  | intro {a b : Operand} {r n : Nat} :
    i.mnem = "mov" → Pair i a b true false → a.kind = .reg → a.reg = some r →
    (port.registerView r a.dtypeSize).isSome = (port.registerView q 0).isSome →
    b.kind = .immediate → b.immValue = some (n : Int) →
    n < 2 ^ (namedView port W r a.dtypeSize).bitSize →
    MovNamed port W q i (namedView port W r a.dtypeSize) n

/-- A jump or a return. -/
structure Transfers (i : Instruction) : Prop where
  mnem : startsWith i.mnem "j" ∨ startsWith i.mnem "ret"
  quiet : ∀ op ∈ i.operands, op.kind = .reg → i.isWritten op.number = false

/-- What an instruction makes of the contents of the registers, listed by parents. -/
inductive Acts (port : IdaPort) (W q : Nat) (i : Instruction) (X : Nat → Nat) :
    (Nat → Nat) → Prop
  | moves {w : RegisterView} {n : Nat} : MovNamed port W q i w n →
    Acts port W q i X (Function.update X w.parent (w.assign n (X w.parent)))
  | transfers : Transfers i → Acts port W q i X X

section Code

variable {port : IdaPort} {W q n : Nat} {i : Instruction} {w : RegisterView} {X X' : Nat → Nat}

theorem MovNamed.finding (move : MovNamed port W q i w n) :
    if w.parent = (namedView port W q 0).parent then
      if Covering w (namedView port W q 0) then registerFinding port i q = some (.interpret 0)
      else ∃ reason detail, registerFinding port i q = some (.report (.unknown reason detail))
    else registerFinding port i q = none := by
  rcases move with ⟨mnem, pair, ha, hr, described, -, -, -⟩
  rename_i a b r
  have notCall : i.isCall = false := not_isCall_of_mnem mnem (by decide)
  rw [registerFinding_of_notCall notCall, pair.operands]
  simp only [registerOperandFinding, ha, pair.first, pair.second, pair.flagA, pair.flagB, and_self,
    if_true, hr, Option.bind_some, namedView]
  cases known : port.registerView q 0 with
  | none =>
      rw [known] at described
      have none : port.registerView r a.dtypeSize = none := by simpa using described
      by_cases same : r = q
      · subst same
        simp [none, Covering]
      · simp [none, same]
  | some query =>
      rw [known] at described
      rcases Option.isSome_iff_exists.mp described with ⟨write, view⟩
      simp only [view, Option.getD_some, Covering]
      by_cases same : write.parent = query.parent
      · by_cases covering : write.writeDefinesParent = true ∨
            write.bitOffset = 0 ∧ query.bitSize ≤ write.bitSize
        · simp [same, covering]
        · simp [same, covering]
      · simp [same]

theorem MovNamed.decides {self : BackwardResolver} (builtin : self.registry = defaultRegistry)
    (move : MovNamed self.port W q i w n) (funcEa : Nat) :
    Decides self i funcEa (.interpret 0) (.concrete (.int n) .int) := by
  rcases move with ⟨mnem, pair, ha, -, -, hb, imm, -⟩
  exact decides_movImm builtin mnem pair ha hb imm funcEa

theorem Transfers.finding (transfers : Transfers i) : registerFinding port i q = none := by
  refine registerFinding_quiet ?_ transfers.quiet q
  rcases transfers.mnem with jump | ret
  · exact not_isCall_of_start jump (by decide)
  · exact not_isCall_of_start ret (by decide)

theorem Acts.frame (acts : Acts port W q i X X') (missed : registerFinding port i q = none) :
    X' (namedView port W q 0).parent = X (namedView port W q 0).parent := by
  cases acts with
  | @moves w n move =>
      have finding := move.finding
      by_cases same : w.parent = (namedView port W q 0).parent
      · rw [if_pos same, missed] at finding
        split at finding
        · cases finding
        · rcases finding with ⟨_, _, found⟩
          cases found
      · exact Function.update_of_ne (Ne.symm same) _ _
  | transfers => rfl

end Code

/-! ## Executions -/

/-- Every instruction is a move of an immediate, a jump or a return. -/
def Modelled (port : IdaPort) (W q : Nat) (code : List Instruction) : Prop :=
  ∀ i ∈ code, (∃ w n, MovNamed port W q i w n) ∨ Transfers i

/-- An execution from the function's entry, with any contents there, comes to `ea` with `X`. -/
inductive Execution (port : IdaPort) (W q : Nat) (computed : Instruction → List Nat)
    (funcEa : Nat) (code : List Instruction) : Nat → (Nat → Nat) → Prop
  | entry (X : Nat → Nat) : Execution port W q computed funcEa code funcEa X
  | falls {i : Instruction} {X X' : Nat → Nat} :
    Execution port W q computed funcEa code i.ea X → i ∈ code → Acts port W q i X X' →
    i.FallsThrough → Execution port W q computed funcEa code i.nextEa X'
  | jumps {i : Instruction} {ea : Nat} {X X' : Nat → Nat} :
    Execution port W q computed funcEa code i.ea X → i ∈ code → Acts port W q i X X' →
    i.JumpsTo computed ea → Execution port W q computed funcEa code ea X'

/-- From an address control falls through to the use, with no write to the register. -/
inductive FallsTo (port : IdaPort) (q use : Nat) (code : List Instruction) : Nat → Prop
  | here : FallsTo port q use code use
  | past {i : Instruction} : i ∈ code → registerFinding port i q = none → i.FallsThrough →
    FallsTo port q use code i.nextEa → FallsTo port q use code i.ea

/-- Whatever brings an execution behind `last`, to where control falls through to the use, brings
`n` in the register: `last` itself, or a jump. -/
def ArrivesWith (port : IdaPort) (W q : Nat) (computed : Instruction → List Nat)
    (funcEa use : Nat) (code : List Instruction) (last : Instruction) (n : Nat) : Prop :=
  ∀ i ∈ code, ∀ X X' ea, Execution port W q computed funcEa code i.ea X → Acts port W q i X X' →
    (i = last ∧ ea = i.nextEa ∨ i.JumpsTo computed ea) → FallsTo port q use code ea →
    (namedView port W q 0).content (X' (namedView port W q 0).parent) = n

section Executions

variable {port : IdaPort} {W q n funcEa use ea : Nat} {computed : Instruction → List Nat}
variable {code pre post : List Instruction} {i j last : Instruction} {X : Nat → Nat}

theorem Unplaced.apart (unplaced : Unplaced port funcEa use code) (hi : i ∈ code) (hj : j ∈ code) :
    i = j ∨ (i.ea < j.ea ∧ i.nextEa ≤ j.ea) ∨ (j.ea < i.ea ∧ j.nextEa ≤ i.ea) := by
  have ordered := unplaced.ordered
  rcases List.append_of_mem hi with ⟨early, late, rfl⟩
  rw [List.pairwise_append, List.pairwise_cons] at ordered
  rcases List.mem_append.mp hj with before | after
  · exact Or.inr (Or.inr (ordered.2.2 j before i List.mem_cons_self))
  · rcases List.mem_cons.mp after with rfl | after
    · exact Or.inl rfl
    · exact Or.inr (Or.inl (ordered.2.1.1 j after))

theorem FallsTo.le (falls : FallsTo port q use code ea) : ea ≤ use := by
  induction falls with
  | here => exact Nat.le_refl _
  | @past i _ _ _ _ ih => exact (Nat.le_add_right i.ea i.size).trans ih

/-- Where control falls to the use is behind everything below the use that writes the register. -/
theorem FallsTo.behind (unplaced : Unplaced port funcEa use code) (member : last ∈ code)
    (below : last.ea < use) (writes : registerFinding port last q ≠ none)
    (falls : FallsTo port q use code ea) : last.ea < ea := by
  induction falls with
  | here => exact below
  | @past i here missed _ _ ih =>
      rcases unplaced.apart member here with rfl | earlier | later
      · exact (writes missed).elim
      · exact earlier.1
      · omega

/-- Only the last write below the use falls to it. -/
theorem FallsTo.eq_last (unplaced : Unplaced port funcEa use code)
    (split : before code use = pre ++ last :: post)
    (clear : ∀ j ∈ post, registerFinding port j q = none)
    (writes : registerFinding port last q ≠ none) (member : i ∈ code)
    (sets : registerFinding port i q ≠ none) (falls : FallsTo port q use code i.nextEa) :
    i = last := by
  have here : last ∈ before code use := by simp [split]
  have below : last.ea < use := by simpa using (List.mem_filter.mp here).2
  have behind := falls.behind unplaced (mem_of_before here) below writes
  have sized := unplaced.sized i member
  have le := falls.le
  unfold Instruction.nextEa at behind le
  have inside : i ∈ before code use :=
    List.mem_filter.mpr ⟨member, by
      rw [decide_eq_true_eq]
      omega⟩
  have ordered : (before code use).Pairwise fun i j => i.ea < j.ea ∧ i.nextEa ≤ j.ea :=
    unplaced.ordered.filter _
  rw [split] at inside ordered
  rcases List.mem_append.mp inside with early | late
  · have beyond := ((List.pairwise_append.mp ordered).2.2 i early last List.mem_cons_self).2
    unfold Instruction.nextEa at beyond
    omega
  · rcases List.mem_cons.mp late with same | late
    · exact same
    · exact (sets (clear i late)).elim

/-- From there an execution does reach the use, and nothing changes the register. -/
theorem FallsTo.runs (modelled : Modelled port W q code) (falls : FallsTo port q use code ea)
    (execution : Execution port W q computed funcEa code ea X) :
    ∃ X', Execution port W q computed funcEa code use X' ∧
      X' (namedView port W q 0).parent = X (namedView port W q 0).parent := by
  induction falls generalizing X with
  | here => exact ⟨X, execution, rfl⟩
  | @past i member missed through _ ih =>
      have acts : ∃ X', Acts port W q i X X' := by
        rcases modelled i member with ⟨w, n, move⟩ | transfers
        · exact ⟨_, .moves move⟩
        · exact ⟨_, .transfers transfers⟩
      rcases acts with ⟨X', acts⟩
      rcases ih (execution.falls member acts through) with ⟨X'', reached, same⟩
      exact ⟨X'', reached, same.trans (acts.frame missed)⟩

/-- Where the number arrives, it is in the register wherever control falls to the use. -/
theorem Execution.holds (unplaced : Unplaced port funcEa use code)
    (split : before code use = pre ++ last :: post)
    (clear : ∀ j ∈ post, registerFinding port j q = none)
    (writes : registerFinding port last q ≠ none)
    (arrives : ArrivesWith port W q computed funcEa use code last n)
    (execution : Execution port W q computed funcEa code ea X)
    (falls : FallsTo port q use code ea) :
    (namedView port W q 0).content (X (namedView port W q 0).parent) = n := by
  induction execution with
  | entry X =>
      have here : last ∈ before code use := by simp [split]
      have below : last.ea < use := by simpa using (List.mem_filter.mp here).2
      have behind := falls.behind unplaced (mem_of_before here) below writes
      have low := unplaced.low last (mem_of_before here)
      omega
  | @falls i X X' earlier member acts through ih =>
      by_cases missed : registerFinding port i q = none
      · rw [acts.frame missed]
        exact ih (.past member missed through falls)
      · have same := falls.eq_last unplaced split clear writes member missed
        exact arrives i member X X' _ earlier acts (Or.inl ⟨same, rfl⟩) falls
  | jumps earlier member acts jumps _ =>
      exact arrives _ member _ _ _ earlier acts (Or.inr jumps) falls

/-- The number arrives if every execution holds it at the use. -/
theorem arrivesWith_of_holds (modelled : Modelled port W q code) (through : last.FallsThrough)
    (holds : ∀ X, Execution port W q computed funcEa code use X →
      (namedView port W q 0).content (X (namedView port W q 0).parent) = n) :
    ArrivesWith port W q computed funcEa use code last n := by
  intro i member X X' ea execution acts comes falls
  have entered : Execution port W q computed funcEa code ea X' := by
    rcases comes with ⟨rfl, rfl⟩ | jumps
    · exact execution.falls member acts through
    · exact execution.jumps member acts jumps
  rcases falls.runs modelled entered with ⟨X'', reached, same⟩
  rw [← same]
  exact holds X'' reached

end Executions

/-! ## What is reported -/

/-- Without a block for the use, a concrete answer is right on every execution that reaches it
if and only if the last move to the register below the use covers the register in part only, or
else its number is what the move itself and every jump bring to where control falls to the use. -/
theorem linear_answers_hold_iff {self : BackwardResolver}
    (builtin : self.registry = defaultRegistry) {funcEa use W q : Nat} {code : List Instruction}
    (unplaced : Unplaced self.port funcEa use code)
    (computed : Instruction → List Nat) (modelled : Modelled self.port W q code) :
    (∀ steps blocks d k,
      (self.withLimits steps blocks).resolveRegister q use = some (.concrete d k) →
        ∀ X, Execution self.port W q computed funcEa code use X →
          d = .int ((namedView self.port W q 0).content (X (namedView self.port W q 0).parent))) ↔
      ∀ pre last post w n, before code use = pre ++ last :: post → MovNamed self.port W q last w n →
        w.parent = (namedView self.port W q 0).parent → Covering w (namedView self.port W q 0) →
        (∀ j ∈ post, registerFinding self.port j q = none) →
        ArrivesWith self.port W q computed funcEa use code last n := by
  have strict := strict_of_builtin builtin
  have scan := unplaced.registerScan
  constructor
  · intro holds pre last post w n split move same covering clear
    have found := move.finding
    rw [if_pos same, if_pos covering] at found
    have through : last.FallsThrough := by
      rcases move with ⟨mnem, -, -, -, -, -, -, -⟩
      rw [Instruction.FallsThrough, mnem]
      decide
    apply arrivesWith_of_holds modelled through
    intro X execution
    have answered := @RegisterScan.eq (self.withLimits (post.length + 2) self.maxBlocks) _ _ _ _ _
      _ _ _ q scan split found clear
      (fun steps blocks => move.decides builtin funcEa steps blocks) (Nat.le_refl _)
    have value := holds _ _ _ _ answered X execution
    exact (Int.ofNat.inj (Datum.int.inj value)).symm
  · intro arrives steps blocks d k answered X execution
    rcases ConsistentCfg.exists_last (fun i => registerFinding self.port i q ≠ none)
      (before code use) with none | ⟨pre, last, post, split, writes, clear⟩
    · have unknown := @RegisterScan.none (self.withLimits steps blocks) _ _ _ q scan strict
        (fun j member => not_not.mp (none j member)) _ answered
      cases unknown
    · have clear' : ∀ j ∈ post, registerFinding self.port j q = Option.none :=
        fun j member => not_not.mp (clear j member)
      have member : last ∈ code := mem_of_before (show last ∈ before code use by simp [split])
      have value : ∀ {f : Finding} {v : ValueLattice}, registerFinding self.port last q = some f →
          Decides self last funcEa f v → ValueLattice.concrete d k = v := by
        intro f v found decides
        exact @RegisterScan.known (self.withLimits steps blocks) _ _ _ _ _ _ _ _ q scan strict
          split found clear' (fun steps blocks => decides steps blocks) _ (Eq.refl true) answered
      rcases modelled last member with ⟨w, n, move⟩ | transfers
      · have finding := move.finding
        by_cases same : w.parent = (namedView self.port W q 0).parent
        · rw [if_pos same] at finding
          by_cases covering : Covering w (namedView self.port W q 0)
          · rw [if_pos covering] at finding
            cases value finding (move.decides builtin funcEa)
            have arrived := arrives pre last post w n split move same covering clear'
            have held := execution.holds unplaced split clear' writes arrived .here
            rw [held]
          · rw [if_neg covering] at finding
            rcases finding with ⟨reason, detail, found⟩
            cases value found (decides_report self last funcEa _)
        · rw [if_neg same] at finding
          exact (writes finding).elim
      · exact (writes transfers.finding).elim

/-! ## A move that a jump skips -/

namespace SkippedMove

def skip : Instruction := FakeIdaPort.jump 0x401000 "jz" 2 0x401007

def setEax : Instruction :=
  FakeIdaPort.insn 0x401002 "mov" 5 [FakeIdaPort.reg 0 0, FakeIdaPort.imm 1 5]

def back : Instruction := FakeIdaPort.insn 0x401007 "ret" 1 []

def port : IdaPort := FakeIdaPort.toPort
  { pointerSize := 4
    instructions := [skip, setEax, back]
    funcBounds := [(0x401000, 0x401008)] }

def resolver : BackwardResolver where
  port := port
  registry := defaultRegistry

theorem unplaced : Unplaced port 0x401000 0x401007 [skip, setEax, back] where
  owner := by decide
  outside := by decide
  ordered := by decide
  sized := by decide
  low := by decide
  decoded := by decide
  heads := by
    intro ea known
    rcases known with rfl | ⟨i, member, rfl⟩
    · decide
    · revert i
      decide

theorem modelled : Modelled port 32 0 [skip, setEax, back] := by
  intro i member
  rcases List.mem_cons.mp member with rfl | member
  · exact Or.inr ⟨Or.inl (by decide), by decide⟩
  · rcases List.mem_pair.mp member with rfl | rfl
    · have pair : Pair setEax (FakeIdaPort.reg 0 0) (FakeIdaPort.imm 1 5) true false :=
        ⟨rfl, rfl, rfl, rfl, rfl⟩
      exact Or.inl ⟨_, 5, .intro rfl pair rfl rfl (by decide) rfl rfl (by decide)⟩
    · exact Or.inr ⟨Or.inr (by decide), by decide⟩

/-- The jump is taken, and nothing was moved to `eax`. -/
theorem skipped : Execution port 32 0 (fun _ => []) 0x401000 [skip, setEax, back] 0x401007
    (fun _ => 0) := by
  have jumps : skip.JumpsTo (fun _ => []) 0x401007 :=
    .named (by decide) List.mem_cons_self rfl
  have transfers : Transfers skip := ⟨Or.inl (by decide), by decide⟩
  exact .jumps (.entry fun _ => 0) List.mem_cons_self (.transfers transfers) jumps

/-- The number is reported, and an execution comes to the use with another one. -/
theorem skipped_move_reported :
    port.getFlowchartBlocks 0x401000 = [] ∧
      resolver.resolveRegister 0 0x401007 = some (.concrete (.int 5) .int) ∧
      ∃ X, Execution port 32 0 (fun _ => []) 0x401000 [skip, setEax, back] 0x401007 X ∧
        (namedView port 32 0 0).content (X (namedView port 32 0 0).parent) ≠ 5 :=
  ⟨rfl, by decide, _, skipped, by decide⟩

/-- The jump does not bring the number. -/
theorem linear_answers_hold_iff_skipped :
    ¬ ∀ pre last post w n, before [skip, setEax, back] 0x401007 = pre ++ last :: post →
      MovNamed port 32 0 last w n → w.parent = (namedView port 32 0 0).parent →
      Covering w (namedView port 32 0 0) → (∀ j ∈ post, registerFinding port j 0 = none) →
      ArrivesWith port 32 0 (fun _ => []) 0x401000 0x401007 [skip, setEax, back] last n := by
  intro arrives
  have holds := (@linear_answers_hold_iff resolver rfl _ _ _ _ _ unplaced (fun _ => [])
    modelled).mpr arrives
  have value := holds 200 64 (.int 5) .int (by decide) _ skipped
  exact absurd value (by decide)

end SkippedMove

end IDAnalysister
