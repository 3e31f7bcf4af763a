import IDAnalysister.Adapters.FakePort
import IDAnalysister.Backward.Refusal
import IDAnalysister.Backward.Straight

/-!
# Views of one register

What `resolve_register` reports for a view after moves of immediates to views of the same
parent. The last move alone decides: its immediate is reported when the move defines the
whole parent, or when its view starts at bit 0 and is at least as wide as the queried one.
Neither test looks at the offset of the queried view, and the immediate is not cut to it;
`views_hold_iff` says when what is reported are the queried bits.
-/

namespace IDAnalysister

/-! ## The content of a register -/

namespace RegisterView

/-- The parent's content after `n` is written to the view. -/
def assign (w : RegisterView) (n X : Nat) : Nat :=
  if w.writeDefinesParent then n <<< w.bitOffset
  else X % 2 ^ w.bitOffset ||| n <<< w.bitOffset |||
    (X >>> (w.bitOffset + w.bitSize)) <<< (w.bitOffset + w.bitSize)

/-- The bits of the parent that the view names. -/
def content (q : RegisterView) (X : Nat) : Nat := (X >>> q.bitOffset) % 2 ^ q.bitSize

/-- The view lies within its parent. -/
structure Fits (w : RegisterView) : Prop where
  positive : 0 < w.bitSize
  inside : w.bitOffset + w.bitSize ≤ w.parentBitSize

variable {w q : RegisterView} {n X k : Nat}

theorem testBit_high {m : Nat} (lt : n < 2 ^ m) (above : m ≤ k) : n.testBit k = false :=
  Nat.testBit_lt_two_pow (lt.trans_le (Nat.pow_le_pow_right Nat.two_pos above))

theorem testBit_assign (lt : n < 2 ^ w.bitSize) (k : Nat) :
    (w.assign n X).testBit k =
      if w.bitOffset ≤ k ∧ k < w.bitOffset + w.bitSize then n.testBit (k - w.bitOffset)
      else !w.writeDefinesParent && X.testBit k := by
  unfold assign
  cases w.writeDefinesParent with
  | true =>
      simp only [if_true, Nat.testBit_shiftLeft, ge_iff_le, Bool.not_true, Bool.false_and]
      by_cases below : w.bitOffset ≤ k
      · by_cases within : k < w.bitOffset + w.bitSize
        · simp [below, within]
        · simp [below, within, testBit_high lt (show w.bitSize ≤ k - w.bitOffset by omega)]
      · simp [below]
  | false =>
      simp only [Bool.false_eq_true, if_false, Nat.testBit_or, Nat.testBit_mod_two_pow,
        Nat.testBit_shiftLeft, Nat.testBit_shiftRight, ge_iff_le, Bool.not_false, Bool.true_and]
      by_cases below : w.bitOffset ≤ k
      · by_cases within : k < w.bitOffset + w.bitSize
        · have notLow : ¬ k < w.bitOffset := by omega
          have notHigh : ¬ w.bitOffset + w.bitSize ≤ k := by omega
          simp [below, within, notLow, notHigh]
        · have notLow : ¬ k < w.bitOffset := by omega
          have above : w.bitOffset + w.bitSize ≤ k := by omega
          have same : w.bitOffset + w.bitSize + (k - (w.bitOffset + w.bitSize)) = k := by omega
          simp [below, within, notLow, above, same,
            testBit_high lt (show w.bitSize ≤ k - w.bitOffset by omega)]
      · have low : k < w.bitOffset := by omega
        have notHigh : ¬ w.bitOffset + w.bitSize ≤ k := by omega
        simp [below, low, notHigh]

theorem content_eq_iff :
    q.content X = n ↔ n < 2 ^ q.bitSize ∧
      ∀ k < q.bitSize, X.testBit (q.bitOffset + k) = n.testBit k := by
  constructor
  · intro same
    subst same
    refine ⟨Nat.mod_lt _ (Nat.two_pow_pos _), fun k below => ?_⟩
    simp [content, Nat.testBit_mod_two_pow, Nat.testBit_shiftRight, below]
  · intro both
    apply Nat.eq_of_testBit_eq
    intro k
    simp only [content, Nat.testBit_mod_two_pow, Nat.testBit_shiftRight]
    by_cases below : k < q.bitSize
    · simp [below, both.2 k below]
    · simp [below, testBit_high both.1 (Nat.le_of_not_lt below)]

/-- Writing `n` to `w` leaves `n` in `q` whatever the parent held before. -/
def Carries (w q : RegisterView) (n : Nat) : Prop :=
  (w.writeDefinesParent ∨
      w.bitOffset ≤ q.bitOffset ∧ q.bitOffset + q.bitSize ≤ w.bitOffset + w.bitSize) ∧
    (n = 0 ∨ q.bitOffset = w.bitOffset ∧ n < 2 ^ q.bitSize)

/-- A number that its own shift reproduces in a window is zero. -/
theorem eq_zero_of_shifted {m : Nat} (lt : n < 2 ^ m) {shift : Nat} (positive : 0 < shift)
    (same : ∀ k < m, n.testBit k = (decide (shift ≤ k) && n.testBit (k - shift))) : n = 0 := by
  apply Nat.eq_of_testBit_eq
  intro k
  rw [Nat.zero_testBit]
  induction k using Nat.strong_induction_on with
  | _ k ih =>
      by_cases below : k < m
      · rw [same k below]
        by_cases reached : shift ≤ k
        · rw [ih (k - shift) (by omega), Bool.and_false]
        · simp [reached]
      · exact testBit_high lt (Nat.le_of_not_lt below)

theorem eq_zero_of_unshifted {m : Nat} (lt : n < 2 ^ m) {shift : Nat} (positive : 0 < shift)
    (same : ∀ k < m, n.testBit k = n.testBit (shift + k)) : n = 0 := by
  have shifted : n = n >>> shift := by
    apply Nat.eq_of_testBit_eq
    intro k
    rw [Nat.testBit_shiftRight]
    by_cases below : k < m
    · exact same k below
    · have above : m ≤ shift + k := by omega
      rw [testBit_high lt (Nat.le_of_not_lt below), testBit_high lt above]
  by_contra nonzero
  have smaller : n / 2 ^ shift < n :=
    Nat.div_lt_self (Nat.pos_of_ne_zero nonzero) (Nat.one_lt_two_pow (by omega))
  rw [Nat.shiftRight_eq_div_pow] at shifted
  omega

theorem Carries.content_eq (lt : n < 2 ^ w.bitSize) (carries : Carries w q n) (X : Nat) :
    q.content (w.assign n X) = n := by
  rcases carries with ⟨covered, value⟩
  have high (k : Nat) (above : w.bitSize ≤ k) : n.testBit k = false := testBit_high lt above
  -- a bit outside the written view is cleared by the write
  have outside : ∀ k < q.bitSize,
      ¬ (w.bitOffset ≤ q.bitOffset + k ∧ q.bitOffset + k < w.bitOffset + w.bitSize) →
      w.writeDefinesParent = true := by
    intro k below out
    rcases covered with defines | inside
    · exact defines
    · omega
  rw [content_eq_iff]
  rcases value with rfl | ⟨aligned, fits⟩
  · refine ⟨Nat.two_pow_pos _, fun k below => ?_⟩
    rw [testBit_assign lt]
    split
    · simp
    · rename_i out
      simp [outside k below out]
  · refine ⟨fits, fun k below => ?_⟩
    rw [testBit_assign lt]
    split
    · rw [aligned, Nat.add_sub_cancel_left]
    · rename_i out
      rw [outside k below out, high k (by omega)]
      simp

theorem carries_of_content_eq (lt : n < 2 ^ w.bitSize) (fits : q.Fits)
    (always : ∀ X < 2 ^ q.parentBitSize, q.content (w.assign n X) = n) : Carries w q n := by
  have bits : ∀ X < 2 ^ q.parentBitSize, ∀ k < q.bitSize,
      (w.assign n X).testBit (q.bitOffset + k) = n.testBit k :=
    fun X below => (content_eq_iff.mp (always X below)).2
  have zero := bits 0 (Nat.two_pow_pos _)
  have small : n < 2 ^ q.bitSize := (content_eq_iff.mp (always 0 (Nat.two_pow_pos _))).1
  have inside := fits.inside
  have high (k : Nat) (above : w.bitSize ≤ k) : n.testBit k = false := testBit_high lt above
  constructor
  · by_contra uncovered
    rw [not_or] at uncovered
    -- some queried bit keeps whatever the parent held
    have kept : ∃ k < q.bitSize,
        ¬ (w.bitOffset ≤ q.bitOffset + k ∧ q.bitOffset + k < w.bitOffset + w.bitSize) := by
      by_cases left : w.bitOffset ≤ q.bitOffset
      · exact ⟨q.bitSize - 1, Nat.sub_lt fits.positive (by decide), by
          have positive := fits.positive
          omega⟩
      · exact ⟨0, fits.positive, by omega⟩
    rcases kept with ⟨k, below, out⟩
    have set := bits (2 ^ (q.bitOffset + k)) (Nat.pow_lt_pow_right (by decide) (by omega)) k below
    have unset := zero k below
    rw [testBit_assign lt, if_neg out] at set unset
    rw [← set] at unset
    simp [uncovered.1] at unset
  · by_cases aligned : q.bitOffset = w.bitOffset
    · exact Or.inr ⟨aligned, small⟩
    · left
      rcases Nat.lt_or_gt_of_ne aligned with before | after
      · refine eq_zero_of_shifted small (Nat.sub_pos_of_lt before) fun k below => ?_
        rw [← zero k below, testBit_assign lt]
        have shift : q.bitOffset + k - w.bitOffset = k - (w.bitOffset - q.bitOffset) := by omega
        by_cases reached : w.bitOffset ≤ q.bitOffset + k
        · have reached' : w.bitOffset - q.bitOffset ≤ k := by omega
          by_cases last : q.bitOffset + k < w.bitOffset + w.bitSize
          · simp [reached, reached', last, shift]
          · simp [last, high (k - (w.bitOffset - q.bitOffset)) (by omega)]
        · have reached' : ¬ w.bitOffset - q.bitOffset ≤ k := by omega
          simp [reached, reached']
      · refine eq_zero_of_unshifted small (Nat.sub_pos_of_lt after) fun k below => ?_
        rw [← zero k below, testBit_assign lt]
        have shift : q.bitOffset + k - w.bitOffset = q.bitOffset - w.bitOffset + k := by omega
        have reached : w.bitOffset ≤ q.bitOffset + k := by omega
        by_cases last : q.bitOffset + k < w.bitOffset + w.bitSize
        · simp [reached, last, shift]
        · simp [last, high (q.bitOffset - w.bitOffset + k) (by omega)]

end RegisterView

/-! ## Moves of immediates to views -/

/-- `mov view, n` on a register of which `w` is the view, as the port describes it. -/
inductive MovView (port : IdaPort) (parent : Nat) (i : Instruction) : RegisterView → Nat → Prop
  | intro {a b : Operand} {r : Nat} {w : RegisterView} {n : Nat} :
    i.mnem = "mov" → Pair i a b true false → a.kind = .reg → a.reg = some r →
    port.registerView r a.dtypeSize = some w → w.parent = parent → b.kind = .immediate →
    b.immValue = some (n : Int) → n < 2 ^ w.bitSize → MovView port parent i w n

/-- The resolver takes the move for a definition of the queried view. -/
def Covering (w query : RegisterView) : Prop :=
  w.writeDefinesParent ∨ (w.bitOffset = 0 ∧ query.bitSize ≤ w.bitSize)

instance (w query : RegisterView) : Decidable (Covering w query) :=
  inferInstanceAs (Decidable (_ ∨ _))

variable {self : BackwardResolver} {i : Instruction} {w query : RegisterView} {n q : Nat}

theorem MovView.lt {port : IdaPort} {parent : Nat} (move : MovView port parent i w n) :
    n < 2 ^ w.bitSize := by
  cases move
  assumption

theorem MovView.finding (move : MovView self.port query.parent i w n)
    (named : self.port.registerView q 0 = some query) :
    (Covering w query ∧ registerFinding self.port i q = some (.interpret 0)) ∨
      (¬ Covering w query ∧ ∃ reason detail,
        registerFinding self.port i q = some (.report (.unknown reason detail))) := by
  rcases move with ⟨mnem, pair, ha, hr, view, parent, -, -, -⟩
  have notCall : i.isCall = false := not_isCall_of_mnem mnem (by decide)
  rw [registerFinding_of_notCall notCall, pair.operands]
  simp only [registerOperandFinding, ha, pair.first, pair.flagA, and_self, if_true, named, hr,
    Option.bind_some, view, parent, ne_eq, not_true_eq_false, if_false]
  by_cases covering : Covering w query
  · left
    have test : w.writeDefinesParent = true ∨ w.bitOffset = 0 ∧ query.bitSize ≤ w.bitSize :=
      covering
    rw [if_pos test]
    exact ⟨covering, rfl⟩
  · right
    have test : ¬ (w.writeDefinesParent = true ∨ w.bitOffset = 0 ∧ query.bitSize ≤ w.bitSize) :=
      covering
    rw [if_neg test]
    exact ⟨covering, _, _, rfl⟩

theorem MovView.decides (builtin : self.registry = defaultRegistry) {parent : Nat}
    (move : MovView self.port parent i w n) (funcEa : Nat) :
    Decides self i funcEa (.interpret 0) (.concrete (.int n) .int) := by
  rcases move with ⟨mnem, pair, ha, -, -, -, hb, imm, -⟩
  exact decides_movImm builtin mnem pair ha hb imm funcEa

/-! ## What is reported after a row of moves -/

/-- The parent's content after writes to its views. -/
def RegisterView.assignAll (writes : List (RegisterView × Nat)) (X : Nat) : Nat :=
  writes.foldl (fun X write => write.1.assign write.2 X) X

/-- The instructions are moves of immediates to views of `parent`, as listed in `writes`. -/
def MoveRow (port : IdaPort) (parent : Nat) (is : List Instruction)
    (writes : List (RegisterView × Nat)) : Prop :=
  List.Forall₂ (fun i write => MovView port parent i write.1 write.2) is writes

/-- Under any limits, after any row of moves that ends with `last` and from any content of
the parent, a concrete answer for `q` is the content of its view. -/
def ViewAnswersHold (layout : Nat → Nat → Option RegisterView) (q : Nat) (query : RegisterView)
    (last : Option (RegisterView × Nat)) : Prop :=
  ∀ (self : BackwardResolver) (is : List Instruction) (use : Nat)
    (writes : List (RegisterView × Nat)),
    self.registry = defaultRegistry → self.port.registerView = layout →
    StraightLine self.port is use → MoveRow self.port query.parent is writes →
    writes.getLast? = last → ∀ X < 2 ^ query.parentBitSize, ∀ d k,
      self.resolveRegister q use = some (.concrete d k) →
        d = .int (query.content (RegisterView.assignAll writes X))

section Rows

variable {layout : Nat → Nat → Option RegisterView} {q : Nat} {query w : RegisterView} {n : Nat}

theorem viewAnswersHold_none : ViewAnswersHold layout q query none := by
  intro self is use writes builtin _ line row last X _ d k answered
  obtain rfl : writes = [] := List.getLast?_eq_none_iff.mp last
  obtain rfl : is = [] := List.forall₂_nil_right_iff.mp row
  have strict := strict_of_builtin builtin
  have unknown := line.registerScan.none strict (q := q) (by simp) answered
  cases unknown

/-- A view that is not reported, or carries its immediate, is reported right. -/
theorem viewAnswersHold_of_carries (named : layout q 0 = some query)
    (holds : ¬ Covering w query ∨ w.Carries query n) :
    ViewAnswersHold layout q query (some (w, n)) := by
  intro self is use writes builtin shape line row last X _ d k answered
  have strict := strict_of_builtin builtin
  rcases List.getLast?_eq_some_iff.mp last with ⟨init, rfl⟩
  rcases forall₂_split row with ⟨pre, i, post, split, -, move, rest⟩
  obtain rfl : post = [] := List.forall₂_nil_right_iff.mp rest
  have named' : self.port.registerView q 0 = some query := by rw [shape, named]
  rcases move.finding named' with ⟨covering, found⟩ | ⟨uncovered, reason, detail, found⟩
  · have value := line.registerScan.known (w := .concrete d k) strict split found (by simp)
      (move.decides builtin line.funcEa) (Eq.refl true) answered
    have carries := holds.resolve_left fun uncovered => uncovered covering
    have lt : n < 2 ^ w.bitSize := move.lt
    cases value
    simp only [RegisterView.assignAll, List.foldl_append, List.foldl_cons, List.foldl_nil]
    rw [carries.content_eq lt]
  · have value := line.registerScan.known (w := .concrete d k) strict split found (by simp)
      (decides_report self i line.funcEa _) (Eq.refl true) answered
    cases value

/-- A move to a view of the layout. -/
def moveView (r size n ea : Nat) : Instruction :=
  FakeIdaPort.insn ea "mov" 1 [FakeIdaPort.reg 0 r size, FakeIdaPort.imm 1 n size]

theorem carries_of_viewAnswersHold (named : layout q 0 = some query) (fits : query.Fits)
    {r size : Nat} (written : layout r size = some w) (same : w.parent = query.parent)
    (lt : n < 2 ^ w.bitSize) (covering : Covering w query)
    (holds : ViewAnswersHold layout q query (some (w, n))) : w.Carries query n := by
  have unit : UnitSized [moveView r size n] := by
    intro f member ea
    rw [List.mem_singleton.mp member]
    exact ⟨rfl, rfl⟩
  let self : BackwardResolver :=
    { port := rowPort { blankPort with registerView := layout } [moveView r size n]
      registry := defaultRegistry }
  have line : StraightLine self.port [moveView r size n 0] 1 := rowLine _ unit
  have move : MovView self.port query.parent (moveView r size n 0) w n :=
    .intro rfl ⟨rfl, rfl, rfl, rfl, rfl⟩ rfl rfl written same rfl rfl lt
  rcases @MovView.finding self _ w query n q move named with ⟨-, found⟩ | ⟨uncovered, -⟩
  · have answered := @RegisterScan.eq self _ [] [] _ 1 _ _ _ q line.registerScan rfl found (by simp)
      (@MovView.decides self _ w n rfl _ move line.funcEa) (show 2 ≤ 200 by decide)
    apply RegisterView.carries_of_content_eq lt fits
    intro X below
    have value := holds self [moveView r size n 0] 1 [(w, n)] rfl rfl line (.cons move .nil) rfl
      X below _ _ answered
    exact (Int.ofNat.inj (Datum.int.inj value)).symm
  · exact (uncovered covering).elim

/-- What is reported for `q` is right after every row of moves that ends with `last` if and
only if `last` does not count as a definition of `q`, or it carries its immediate into the
queried view: it determines every queried bit, and its immediate is 0, or its view starts
where the queried one does and the immediate fits there. -/
theorem views_hold_iff (named : layout q 0 = some query) (fits : query.Fits)
    {last : Option (RegisterView × Nat)}
    (written : ∀ write ∈ last, (∃ r size, layout r size = some write.1) ∧
      write.1.parent = query.parent ∧ write.2 < 2 ^ write.1.bitSize) :
    ViewAnswersHold layout q query last ↔
      ∀ write ∈ last, ¬ Covering write.1 query ∨ write.1.Carries query write.2 := by
  cases last with
  | none => simp [viewAnswersHold_none]
  | some write =>
      rcases written write rfl with ⟨⟨r, size, view⟩, same, lt⟩
      constructor
      · intro holds other member
        cases member
        by_cases covering : Covering write.1 query
        · exact Or.inr (carries_of_viewAnswersHold named fits view same lt covering holds)
        · exact Or.inl covering
      · intro carries
        exact viewAnswersHold_of_carries named (carries write rfl)

end Rows

/-! ## A byte of a register that was written whole -/

namespace ByteOfWord

def setEax : Instruction :=
  FakeIdaPort.insn 0x401000 "mov" 5 [FakeIdaPort.reg 0 0, FakeIdaPort.imm 1 0x1234]

def fake : FakeIdaPort where
  pointerSize := 4
  instructions := [setEax, FakeIdaPort.insn 0x401005 "ret" 1 []]
  funcBounds := [(0x401000, 0x401006)]
  blocks := [(0x401000, [⟨0x401000, 0x401006, [], []⟩])]

def eax : RegisterView :=
  { parent := 0, bitOffset := 0, bitSize := 32, parentBitSize := 32, writeDefinesParent := true }

def al : RegisterView := { parent := 0, bitOffset := 0, bitSize := 8, parentBitSize := 32 }

def resolver : BackwardResolver where
  port := fake.toPort
  registry := defaultRegistry

/-- The whole immediate is reported for the byte. -/
theorem al_reported_whole :
    MoveRow fake.toPort 0 [setEax] [(eax, 0x1234)] ∧ fake.registerView 16 0 = some al ∧
      resolver.resolveRegister 16 0x401005 = some (.concrete (.int 0x1234) .int) ∧
      ∀ X, al.content (RegisterView.assignAll [(eax, 0x1234)] X) = 0x34 := by
  have pair : Pair setEax (FakeIdaPort.reg 0 0) (FakeIdaPort.imm 1 0x1234) true false :=
    ⟨rfl, rfl, rfl, rfl, rfl⟩
  have move : MovView fake.toPort 0 setEax eax 0x1234 :=
    .intro rfl pair rfl rfl (by decide) rfl rfl rfl (by decide)
  have kept (X : Nat) : al.content (RegisterView.assignAll [(eax, 0x1234)] X) = 0x34 := by
    simp [RegisterView.assignAll, RegisterView.assign, RegisterView.content, eax, al]
  exact ⟨.cons move .nil, by decide, by decide, kept⟩

/-- A byte moved to the byte itself is reported right. -/
theorem views_hold_iff_al : ViewAnswersHold fake.registerView 16 al (some (al, 5)) := by
  have fits : al.Fits := ⟨by decide, by decide⟩
  refine (views_hold_iff (by decide) fits ?_).mpr ?_
  · intro write member
    obtain rfl : (al, 5) = write := Option.some.inj member
    exact ⟨⟨16, 1, by decide⟩, rfl, by decide⟩
  · intro write member
    obtain rfl : (al, 5) = write := Option.some.inj member
    refine Or.inr ⟨Or.inr ⟨Nat.le_refl _, Nat.le_refl _⟩, Or.inr ⟨rfl, by decide⟩⟩

end ByteOfWord

end IDAnalysister
