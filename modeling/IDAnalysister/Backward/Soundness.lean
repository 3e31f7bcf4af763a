import Mathlib.Tactic.IntervalCases
import IDAnalysister.Adapters.FakePort
import IDAnalysister.Backward.Forms
import IDAnalysister.Backward.Walk

/-!
# Soundness of the backward resolver

A concrete answer is the word at the place, on every execution along every path to the
use, provided the walk cannot miss the path: the entry has no predecessor, or the path
leaves nothing of its own entry value in the place. The induction is on the nesting of
callbacks; at each level the last definition on the path is one the walk meets.
-/

namespace IDAnalysister

open Effect Prog Transfer

/-! ## Definitions met by the two walks -/

section Finds

variable {self : BackwardResolver} {cb : Callbacks} {funcEa : Nat}

/-- The search for definitions of a place, as the matching functions run it. -/
def findPlace (self : BackwardResolver) (cb : Callbacks) (funcEa : Nat) (p : Place)
    (i : Instruction) : Option (Query ValueLattice) :=
  (placeFinding self.port funcEa i p).map (self.settle cb i funcEa)

theorem missed_of_not_defines {p : Place} {i : Instruction}
    (missed : ¬ Defines (findPlace self cb funcEa p) i) :
    placeFinding self.port funcEa i p = none := by
  simpa [Defines, findPlace] using missed

end Finds

/-- On a trace, the callbacks answered `v` for the place as used at `ea`. -/
def AnswersPlace (port : IdaPort) (funcEa : Nat) (cb : Callbacks) (ea : Nat)
    (t : List (Event Resolver)) (v : ValueLattice) : Place → Prop
  | .reg r => Exec (cb.resolveRegister (some r) ea) t v
  | .cell k => ∃ base disp size, memoryLocation port base disp ea funcEa = k ∧
      Exec (cb.resolveMemory base disp ea size) t v

theorem forall₂_append_left {α β : Type} {R : α → β → Prop} {xs ys : List α} {zs : List β}
    (h : List.Forall₂ R (xs ++ ys) zs) :
    ∃ us vs, zs = us ++ vs ∧ List.Forall₂ R xs us ∧ List.Forall₂ R ys vs := by
  induction xs generalizing zs with
  | nil => exact ⟨[], zs, rfl, .nil, h⟩
  | cons x xs ih =>
      cases h with
      | cons head tail =>
          obtain ⟨us, vs, rfl, left, right⟩ := ih tail
          exact ⟨_ :: us, vs, rfl, .cons head left, right⟩

theorem forall₂_split {α β : Type} {R : α → β → Prop} {xs : List α} {pre post : List β} {y : β}
    (h : List.Forall₂ R xs (pre ++ y :: post)) :
    ∃ us x vs, xs = us ++ x :: vs ∧ List.Forall₂ R us pre ∧ R x y ∧ List.Forall₂ R vs post := by
  rcases forall₂_append_left h.flip with ⟨us, rest, rfl, left, right⟩
  cases right with
  | @cons _ x _ vs head tail => exact ⟨us, x, vs, rfl, left.flip, head, tail.flip⟩

/-- What the walk cannot miss about a place after `ops`. -/
def Accounted {port : IdaPort} {funcEa : Nat} (G : ConsistentCfg port funcEa)
    (ops : List (Op Place)) (p : Place) : Prop :=
  G.cfg.predecessors G.entry = [] ∨ ¬ free ops p

/-- The callbacks report, for any place and use, only what holds along every path. -/
def Callbacks.Sound {port : IdaPort} {funcEa : Nat} (G : ConsistentCfg port funcEa) (W : Nat)
    (cb : Callbacks) : Prop :=
  ∀ (p : Place) {ea : Nat} {π : List Instruction} {ops : List (Op Place)} {s s' : State Place W}
    {t : List (Event Resolver)} {v : ValueLattice},
    Supported port W p → G.PathTo ea π → List.Forall₂ (Form port funcEa W) π ops →
    Accounted G ops p → Run ops s s' → HonestTrace port t →
    AnswersPlace port funcEa cb ea t v p → Holds v (s' p)

section Sound

variable {self : BackwardResolver} {funcEa W loops : Nat} {G : ConsistentCfg self.port funcEa}
variable {cb : Callbacks} {p : Place} {t : List (Event Resolver)} {v : ValueLattice}

/-- Instructions that are no definition of a place leave it alone. -/
theorem kept_of_clear (cb : Callbacks) {π : List Instruction} {ops : List (Op Place)}
    (forms : List.Forall₂ (Form self.port funcEa W) π ops) (supported : Supported self.port W p)
    (clear : ∀ i ∈ π, ¬ Defines (findPlace self cb funcEa p) i) : ∀ op ∈ ops, ¬ op.Writes p := by
  induction forms with
  | nil => simp
  | @cons i op π ops form _ ih =>
      intro op' member
      rcases List.mem_cons.mp member with rfl | later
      · exact form_frame form supported (missed_of_not_defines (clear i (by simp)))
      · exact ih (fun j h => clear j (by simp [h])) op' later

/-- The value of the last definition on a path holds at its end. -/
theorem definition_sound (builtin : self.registry = defaultRegistry) (positive : 0 < W)
    (le : W ≤ 64) (nested : cb.Sound G W) (supported : Supported self.port W p)
    {b : BasicBlockInfo} {π₁ pre post rest : List Instruction} {i : Instruction}
    (path : G.Path b π₁) (split : G.tile b = pre ++ i :: post) {ops : List (Op Place)}
    (forms : List.Forall₂ (Form self.port funcEa W) (π₁ ++ (pre ++ i :: rest)) ops)
    (clear : ∀ j ∈ rest, ¬ Defines (findPlace self cb funcEa p) j) (accounted : Accounted G ops p)
    {s s' : State Place W} (run : Run ops s s') (honest : HonestTrace self.port t)
    (found : Found (findPlace self cb funcEa p) t i v) : Holds v (s' p) := by
  rw [← List.append_assoc] at forms
  obtain ⟨before', after, rfl, formsBefore, formsAfter⟩ := forall₂_append_left forms
  cases formsAfter with
  | @cons _ op _ last form formsRest =>
  obtain ⟨m, runBefore, m', step, runRest⟩ := run_append.mp run
  -- nothing behind the definition writes the place
  have kept := kept_of_clear cb formsRest supported clear
  rw [runRest.frame kept]
  obtain ⟨definition, t', known, sub, computed⟩ := found
  obtain ⟨finding, placed, rfl⟩ := Option.map_eq_some_iff.mp known
  cases form_computes builtin positive le form supported placed computed with
  | silent silent => exact .of_not_concrete silent _
  | const n sets nonneg lt same =>
      obtain ⟨k, rfl⟩ := same
      rw [sets m m' step]
      exact holds_ofInt nonneg lt k
  | copied q n base copies supportedQ sets asked carries =>
      rw [sets m m' step]
      refine carries _ ?_
      have hb := path.mem_blocks
      have bounds := (G.tiled b hb).bounds (show i ∈ G.tile b by simp [split])
      have use : G.PathTo i.ea (π₁ ++ pre) := by
        have reached := ConsistentCfg.PathTo.intro path bounds.1 bounds.2
        rwa [G.before_split hb split] at reached
      have inherited : Accounted G before' q := by
        refine accounted.imp_right fun notFree wasFree => notFree ?_
        have here : free (before' ++ [op]) p :=
          (free_append_singleton _ _ _).mpr (Op.free_of_copies copies wasFree)
        rw [List.append_cons]
        exact free_append_of_kept here kept
      cases q with
      | reg r =>
          obtain ⟨t₁, inside, asked⟩ := asked
          exact nested (.reg r) supportedQ use formsBefore inherited runBefore
            (honest.sub fun e member => sub (inside member)) asked
      | cell k =>
          obtain ⟨base', disp, size, location, t₁, inside, asked⟩ := asked
          exact nested (.cell k) supportedQ use formsBefore inherited runBefore
            (honest.sub fun e member => sub (inside member)) ⟨base', disp, size, location, asked⟩

/-- Whatever the walk of a use reports covers the word at the place. -/
theorem walk_sound {ρ : Type} {paths : Paths ρ} (cov : ρ → Prop)
    (builtin : self.registry = defaultRegistry) (positive : 0 < W) (le : W ≤ 64)
    (nested : cb.Sound G W) (supported : Supported self.port W p)
    {b : BasicBlockInfo} {ea : Nat} {π : List Instruction} (path : G.Path b π)
    (lo : b.startEa ≤ ea) (hi : ea < b.endEa) {ops : List (Op Place)}
    (forms : List.Forall₂ (Form self.port funcEa W) (π ++ before (G.tile b) ea) ops)
    (accounted : Accounted G ops p) {s s' : State Place W} (run : Run ops s s')
    (honest : HonestTrace self.port t) (refused : cov (paths.ofValue budgetExceeded))
    (joins : ∀ results r, r ∈ results → cov r → cov (paths.join results))
    (source : cov paths.noPredecessor) (values : ∀ u, Holds u (s' p) → cov (paths.ofValue u))
    {bound : Nat} {w : ρ} (walked : Exec (walkBlock paths self.port G.cfg
      (findPlace self cb funcEa p) loops bound ea b []) t w) : cov w := by
  have hb := path.mem_blocks
  rcases ConsistentCfg.exists_last (Defines (findPlace self cb funcEa p))
    (before (G.tile b) ea) with clear | ⟨pre, i, post, split, defines, clear⟩
  · rcases path.last (Defines (findPlace self cb funcEa p)) with
      none | ⟨b₁, q, π₁, pre, post, rest, i, path₁, split, defines, rfl, after, hq, last⟩
    · -- the whole path is clear, so the place still holds its entry word
      rcases accounted with entry | notFree
      · exact covers_of_unwritten cov refused joins hb lo hi.le (path.unwritten entry none clear)
          honest walked source
      · refine (notFree ?_).elim
        have kept := kept_of_clear cb forms supported fun j member => by
          rcases List.mem_append.mp member with early | late
          · exact none j early
          · exact clear j late
        simpa using free_append_of_kept (free_nil p) kept
    · refine covers_of_lastDef cov refused joins hb lo hi.le (.back clear hq last) honest walked
        fun u found => values u ?_
      have forms' : List.Forall₂ (Form self.port funcEa W)
          (π₁ ++ (pre ++ i :: ((post ++ rest) ++ before (G.tile b) ea))) ops := by
        simpa using forms
      refine definition_sound builtin positive le nested supported path₁ split forms'
        (fun j member => ?_) accounted run honest found
      rcases List.mem_append.mp member with early | late
      · exact after j early
      · exact clear j late
  · refine covers_of_lastDef cov refused joins hb lo hi.le (.here split defines clear) honest walked
      fun u found => values u ?_
    obtain ⟨rest, whole⟩ := (G.tiled b hb).before_extends ea
    have tile : G.tile b = pre ++ i :: (post ++ rest) := by
      rw [← whole, split]
      simp
    rw [split] at forms
    exact definition_sound builtin positive le nested supported path tile forms clear accounted run
      honest found

/-- The register walk covers a word by a value that holds of it. -/
def RegisterPath.Covers (x : BitVec W) (w : RegisterPath) : Prop := ∃ u, w = .value u ∧ Holds u x

theorem holds_of_le {u v : ValueLattice} {x : BitVec W} (holds : Holds v x) (h : u ≤ v) :
    Holds u x := by
  intro d k same
  subst same
  exact holds d k (ValueLattice.concrete_le.mp h)

theorem RegisterPath.covers_join {x : BitVec W} (results : List RegisterPath) (r : RegisterPath)
    (member : r ∈ results) (covers : r.Covers x) : (joinRegisterPaths results).Covers x := by
  obtain ⟨u, rfl, holds⟩ := covers
  have informative : u ∈ results.filterMap RegisterPath.value? :=
    List.mem_filterMap.mpr ⟨_, member, rfl⟩
  unfold joinRegisterPaths
  split
  · rename_i empty
    rw [empty] at informative
    cases informative
  · exact ⟨_, rfl, holds_of_le holds (ValueLattice.joinAll_le informative)⟩

/-- The memory walk covers a word by finding nothing, or a value that holds of it. -/
def MemoryPath.Covers (x : BitVec W) (w : MemoryPath) : Prop :=
  w = .notFound ∨ ∃ u, w = .value u ∧ Holds u x

theorem MemoryPath.covers_join {x : BitVec W} (results : List MemoryPath) (r : MemoryPath)
    (member : r ∈ results) (covers : r.Covers x) : (joinMemoryPaths results).Covers x := by
  have informative : r ∈ results.filter (· ≠ .cycle) := by
    rcases covers with rfl | ⟨u, rfl, -⟩ <;> simp [List.mem_filter, member]
  unfold joinMemoryPaths
  rw [if_neg (List.ne_nil_of_mem informative)]
  dsimp only
  split
  · exact Or.inl rfl
  · split
    · exact Or.inr ⟨_, rfl, .of_not_concrete (by simp) _⟩
    · rename_i same
      refine Or.inr ⟨_, rfl, ?_⟩
      rcases covers with rfl | ⟨u, rfl, holds⟩
      · -- a path without a value makes the two counts differ
        have shorter : ((results.filter (· ≠ .cycle)).filterMap MemoryPath.value?).length <
            (results.filter (· ≠ .cycle)).length :=
          List.length_filterMap_lt_length_iff_exists.mpr ⟨.notFound, informative, rfl⟩
        exact (same shorter.ne).elim
      · exact holds_of_le holds
          (ValueLattice.joinAll_le (List.mem_filterMap.mpr ⟨_, informative, rfl⟩))

theorem resolveRegisterImpl_sound (builtin : self.registry = defaultRegistry) (positive : 0 < W)
    (le : W ≤ 64) (nested : cb.Sound G W) {q ea : Nat} (supported : WholeReg self.port W q)
    {π : List Instruction} (path : G.PathTo ea π) {ops : List (Op Place)}
    (forms : List.Forall₂ (Form self.port funcEa W) π ops) (accounted : Accounted G ops (.reg q))
    {s s' : State Place W} (run : Run ops s s') (honest : HonestTrace self.port t)
    (answered : Exec (self.resolveRegisterImpl loops cb (some q) ea) t v) :
    Holds v (s' (.reg q)) := by
  obtain ⟨toBlock, lo, hi⟩ := path
  rename_i b π
  have hb := toBlock.mem_blocks
  rcases resolveRegisterImpl_cases hb lo hi honest answered with
    ⟨-, rfl⟩ | ⟨t₁, sub, w, walked, value⟩
  · exact .of_not_concrete (by simp [budgetExceeded]) _
  · have covered := walk_sound (p := .reg q) (RegisterPath.Covers (s' (.reg q))) builtin positive
      le nested supported toBlock lo hi forms accounted run (honest.sub sub)
      ⟨_, rfl, .of_not_concrete (by simp [budgetExceeded]) _⟩ RegisterPath.covers_join
      ⟨_, rfl, .of_not_concrete (by simp) _⟩ (fun u holds => ⟨u, rfl, holds⟩) walked
    rcases covered with ⟨u, rfl, holds⟩
    rcases value with same | ⟨looped, -⟩
    · cases same
      exact holds
    · cases looped

/-- The static fallback never reports a concrete value. -/
theorem fallbackDereference_silent {base : Option Nat} {disp : Int} {ea size : Nat}
    (answered : Exec (self.fallbackDereference loops cb base disp ea size) t v) :
    ∀ d k, v ≠ .concrete d k := by
  have dereferenced {addr : Int} {t : List (Event Resolver)}
      (read : Exec (self.dereference addr size) t v) : ∀ d k, v ≠ .concrete d k := by
    simp only [BackwardResolver.dereference, bind_eq, Query.step_bind] at read
    obtain ⟨ok, t₁, rfl, asked⟩ := exec_call.mp read
    split at asked
    · split at asked
      · obtain ⟨-, rfl⟩ := exec_pure.mp asked
        simp
      · obtain ⟨-, rfl⟩ := exec_pure.mp asked
        simp
    · obtain ⟨-, rfl⟩ := exec_pure.mp asked
      simp [budgetExceeded]
  cases base with
  | none => exact dereferenced answered
  | some r =>
      obtain ⟨t₁, t₂, baseVal, rfl, -, rest⟩ := exec_bind.mp answered
      split at rest
      · obtain ⟨-, rfl⟩ := exec_pure.mp rest
        simp
      · exact dereferenced rest

theorem resolveMemoryImpl_sound (builtin : self.registry = defaultRegistry) (positive : 0 < W)
    (le : W ≤ 64) (nested : cb.Sound G W) {ea size : Nat} {base : Option Nat} {disp : Int}
    {k : MemoryKey} (location : memoryLocation self.port base disp ea funcEa = k)
    {π : List Instruction} (path : G.PathTo ea π) {ops : List (Op Place)}
    (forms : List.Forall₂ (Form self.port funcEa W) π ops) (accounted : Accounted G ops (.cell k))
    {s s' : State Place W} (run : Run ops s s') (honest : HonestTrace self.port t)
    (answered : Exec (self.resolveMemoryImpl loops cb base disp ea size) t v) :
    Holds v (s' (.cell k)) := by
  obtain ⟨toBlock, lo, hi⟩ := path
  rename_i b π
  have hb := toBlock.mem_blocks
  rcases resolveMemoryImpl_cases hb lo hi honest answered with
    ⟨-, rfl⟩ | ⟨t₁, sub, w, walked, value⟩
  · exact .of_not_concrete (by simp [budgetExceeded]) _
  · rw [location] at walked
    have covered := walk_sound (p := .cell k) (MemoryPath.Covers (s' (.cell k))) builtin positive
      le nested trivial toBlock lo hi forms accounted run (honest.sub sub)
      (Or.inr ⟨_, rfl, .of_not_concrete (by simp [budgetExceeded]) _⟩) MemoryPath.covers_join
      (Or.inl rfl) (fun u holds => Or.inr ⟨u, rfl, holds⟩) walked
    rcases value with rfl | ⟨-, t₂, -, fallback⟩
    · rcases covered with missing | ⟨u, same, holds⟩
      · cases missing
      · cases same
        exact holds
    · exact .of_not_concrete (fallbackDereference_silent fallback) _

/-- Callbacks are sound at every nesting depth. -/
theorem callbacks_sound (builtin : self.registry = defaultRegistry) (positive : 0 < W)
    (le : W ≤ 64) (G : ConsistentCfg self.port funcEa) (loops depth : Nat) :
    (self.callbacks loops depth).Sound G W := by
  induction depth with
  | zero =>
      intro p ea π ops s s' t v _ _ _ _ _ _ answered
      cases p with
      | reg r => exact (not_exec_diverge answered).elim
      | cell k =>
          obtain ⟨_, _, _, _, answered⟩ := answered
          exact (not_exec_diverge answered).elim
  | succ depth ih =>
      intro p ea π ops s s' t v supported path forms accounted run honest answered
      cases p with
      | reg r =>
          exact resolveRegisterImpl_sound builtin positive le ih supported path forms accounted run
            honest answered
      | cell k =>
          obtain ⟨base, disp, size, location, answered⟩ := answered
          exact resolveMemoryImpl_sound builtin positive le ih location path forms accounted run
            honest answered

end Sound

/-! ## Registers -/

/-- `s` is led to `s'` by the instructions of `π`, all of them register forms. -/
def Executes (port : IdaPort) (funcEa W : Nat) (π : List Instruction)
    (s s' : State Place W) : Prop :=
  ∃ ops, List.Forall₂ (RegisterForm port funcEa W) π ops ∧ Run ops s s'

/-- If `resolve_register` returns a concrete value, then the register holds exactly that
value on every execution from the function's entry to the use, whatever the limits and
however often the execution goes round a loop. -/
theorem resolveRegister_sound (self : BackwardResolver) (builtin : self.registry = defaultRegistry)
    {funcEa W : Nat} (positive : 0 < W) (le : W ≤ 64) (G : ConsistentCfg self.port funcEa)
    (source : G.cfg.predecessors G.entry = []) {q ea : Nat} (whole : WholeReg self.port W q)
    {d : Datum} {k : ValueKind} (answer : self.resolveRegister q ea = some (.concrete d k))
    {π : List Instruction} (path : G.PathTo ea π) {s s' : State Place W}
    (execution : Executes self.port funcEa W π s s') : d = .int (s' (.reg q)).toNat := by
  obtain ⟨ops, forms, run⟩ := execution
  obtain ⟨⟨v, budget, trace⟩, ran, same⟩ := Option.map_eq_some_iff.mp answer
  obtain ⟨exec, answered⟩ := run_eq_some.mp ran
  have sound := callbacks_sound builtin positive le G self.fuel self.fuel
  have holds := sound (.reg q) whole path (forms.imp fun _ _ form => .register form)
    (Or.inl source) run (honest_of_answers answered) exec
  exact holds d k same

/-- The general registers of a 32-bit fake port are whole registers. -/
theorem FakeIdaPort.wholeReg {fake : FakeIdaPort} (narrow : fake.pointerSize = 4) {r : Nat}
    (general : r < 10) : WholeReg fake.toPort 32 r := by
  have known : r ∈ defaultRegisters.map (·.2) := by
    interval_cases r <;> decide
  have noView : subRegisters.lookup r = none := by
    interval_cases r <;> rfl
  rintro size view (rfl | width) found
  · simp only [toPort, registerView, noView, known, narrow] at found
    cases found
    exact ⟨rfl, rfl, rfl⟩
  · obtain rfl : size = 4 := by omega
    simp only [toPort, registerView, noView, known, narrow] at found
    cases found
    exact ⟨rfl, rfl, rfl⟩

/-! ### A definition before a loop -/

namespace CountedLoop

theorem executes (s : State Place 32) :
    Executes port 0x401000 32 [setEsi, back] s
      (Function.update s (.reg 6) (BitVec.ofInt 32 0x404000)) := by
  refine ⟨[.const (.reg 6) 0x404000, .havoc (Flagged port 0x401000 back)], .cons ?_ (.cons ?_ .nil),
    _, rfl, _, fun _ _ => rfl, rfl⟩
  · exact .movImm rfl ⟨rfl, rfl, rfl, rfl, rfl⟩ ⟨rfl, rfl, rfl,
      FakeIdaPort.wholeReg rfl (by decide)⟩
      ⟨rfl, rfl, by decide, by decide⟩
  · refine .unmatched (by decide) fun op member reg => ?_
    obtain rfl := List.mem_singleton.mp member
    cases reg

end CountedLoop

/-- Once round the loop, `esi` still holds what the resolver reports. -/
theorem resolveRegister_sound_countedLoop :
    Datum.int 0x404000 = .int (Function.update (fun _ => 0#32) (.reg 6) (BitVec.ofInt 32 0x404000)
      (Place.reg 6)).toNat :=
  resolveRegister_sound ⟨CountedLoop.port, defaultRegistry, 200, 64⟩ rfl (by decide) (by decide)
    CountedLoop.graph (by decide) (FakeIdaPort.wholeReg rfl (by decide))
    (show _ = some (ValueLattice.concrete (.int 0x404000) .int) by decide) CountedLoop.once
    (CountedLoop.executes _)

end IDAnalysister
