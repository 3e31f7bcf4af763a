import IDAnalysister.Backward.Accounting
import IDAnalysister.Layout

/-!
# The backward walk over a consistent function

What `scanBack` and `walkBlock` return on a consistent function, for any trace whose
answers come from the port and any decision of the budget. `covers_of_lastDef` and
`covers_of_unwritten` are the direction from paths to results: whatever a last
definition, or a block without predecessors, contributes shows in the result.
`walkBlock_witnessed` is the other one.
-/

namespace IDAnalysister

open Effect Prog

/-! ## Traces answered by a port -/

/-- The database answers of an event are those of the port; the budget may decide
either way. -/
def Event.Honest (port : IdaPort) : Event Resolver → Prop
  | ⟨.get ea, r⟩ => r = port.decodeAt ea
  | ⟨.funcEaFor ea, r⟩ => r = port.getFuncStart ea
  | ⟨.cfgFor funcEa, r⟩ => r = buildCfg port funcEa
  | _ => True

def HonestTrace (port : IdaPort) (t : List (Event Resolver)) : Prop := ∀ e ∈ t, Event.Honest port e

theorem HonestTrace.sub {port : IdaPort} {t t' : List (Event Resolver)}
    (honest : HonestTrace port t)
    (sub : t' ⊆ t) : HonestTrace port t' :=
  fun e member => honest e (sub member)

/-- What the handler answers is honest. -/
theorem honest_of_answers {port : IdaPort} {b b' : ResolutionBudget} {t : List (Event Resolver)}
    (answered : Answers (handler port) b t b') : HonestTrace port t := by
  induction answered with
  | nil => exact fun e member => by cases member
  | @cons b b₁ b₂ o r t first _ ih =>
      intro e member
      rcases List.mem_cons.mp member with rfl | later
      · cases o with
        | step => trivial
        | stepBlock => trivial
        | get ea =>
            cases first
            rfl
        | funcEaFor ea =>
            cases first
            rfl
        | cfgFor funcEa =>
            cases first
            rfl
        | mark m => trivial
      · exact ih e later

/-- A step or a block was refused on the trace. -/
def RefusedOn (t : List (Event Resolver)) : Prop := ∃ e ∈ t, Event.Refused e

instance (t : List (Event Resolver)) : Decidable (RefusedOn t) :=
  inferInstanceAs (Decidable (∃ e ∈ t, Event.Refused e))

/-! ## Scanning a block -/

section Walk

variable {port : IdaPort} {funcEa : Nat} {G : ConsistentCfg port funcEa}
variable {find : Instruction → Option (Query ValueLattice)}

/-- `find` recognises the instruction as a definition. -/
def Defines (find : Instruction → Option (Query ValueLattice)) (i : Instruction) : Prop :=
  (find i).isSome

/-- The instruction `i` is found and its value is `v`, on a part of the trace `t`. -/
structure Found (find : Instruction → Option (Query ValueLattice)) (t : List (Event Resolver))
    (i : Instruction) (v : ValueLattice) : Prop where
  intro ::
  computed : ∃ definition t', find i = some definition ∧ t' ⊆ t ∧ Exec definition t' v

/-- What scanning the instructions `pre` backward can return. -/
inductive Scanned (find : Instruction → Option (Query ValueLattice)) (t : List (Event Resolver))
    (is : List Instruction) : Option ValueLattice → Prop
  | refused : RefusedOn t → Scanned find t is (some budgetExceeded)
  | found {pre post : List Instruction} {i : Instruction} {v : ValueLattice} :
    is = pre ++ i :: post → (∀ j ∈ post, ¬ Defines find j) → Found find t i v →
    Scanned find t is (some v)
  | exhausted : (∀ j ∈ is, ¬ Defines find j) → Scanned find t is none

/-- A definition that was found stays found in a longer trace. -/
theorem Found.weaken {t t' : List (Event Resolver)} {i : Instruction} {v : ValueLattice}
    (found : Found find t i v) (sub : t ⊆ t') : Found find t' i v := by
  obtain ⟨definition, t₁, known, inside, run⟩ := found
  exact ⟨definition, t₁, known, fun e member => sub (inside member), run⟩

theorem Found.defines {t : List (Event Resolver)} {i : Instruction} {v : ValueLattice}
    (found : Found find t i v) : Defines find i := by
  obtain ⟨definition, t₁, known, -, -⟩ := found
  simp [Defines, known]

theorem RefusedOn.weaken {t t' : List (Event Resolver)} (refused : RefusedOn t) (sub : t ⊆ t') :
    RefusedOn t' := by
  obtain ⟨e, member, refused⟩ := refused
  exact ⟨e, sub member, refused⟩

theorem Scanned.weaken {t t' : List (Event Resolver)} {is : List Instruction}
    {s : Option ValueLattice} (scanned : Scanned find t is s) (sub : t ⊆ t') :
    Scanned find t' is s := by
  cases scanned with
  | refused refused => exact .refused (refused.weaken sub)
  | found split clear found => exact .found split clear (found.weaken sub)
  | exhausted clear => exact .exhausted clear

/-- What a scan does, read off its trace. -/
theorem scanned_of_exec {b : BasicBlockInfo} (hb : b ∈ G.cfg.blocks) {is rest : List Instruction}
    (split : G.tile b = is ++ rest) {bound : Nat} {t : List (Event Resolver)}
    {s : Option ValueLattice} (honest : HonestTrace port t)
    (run : Exec (scanBack port find b.startEa bound (is.getLast?.map (·.ea))) t s) :
    Scanned find t is s := by
  induction bound generalizing is rest t with
  | zero =>
      rcases List.eq_nil_or_concat is with rfl | ⟨pre, i, rfl⟩
      · obtain ⟨-, rfl⟩ := exec_pure.mp run
        exact .exhausted (by simp)
      · simp [scanBack] at run
  | succ bound ih =>
      rcases List.eq_nil_or_concat is with rfl | ⟨pre, i, rfl⟩
      · obtain ⟨-, rfl⟩ := exec_pure.mp run
        exact .exhausted (by simp)
      · simp only [List.concat_eq_append, List.getLast?_append, List.getLast?_singleton,
          Option.some_or, Option.map_some, scanBack, bind_eq, Query.step_bind, Query.get_bind]
          at split run ⊢
        obtain ⟨ok, t, rfl, asked⟩ := exec_call.mp run
        cases ok with
        | false =>
            rw [if_neg Bool.false_ne_true] at asked
            obtain ⟨-, rfl⟩ := exec_pure.mp asked
            exact .refused ⟨_, List.mem_cons_self, rfl⟩
        | true =>
            rw [if_pos rfl] at asked
            obtain ⟨fetched, t, rfl, continued⟩ := exec_call.mp asked
            have member : i ∈ G.tile b := by simp [split]
            obtain rfl : fetched = some i := by
              rw [← G.decoded b hb i member]
              exact honest ⟨.get i.ea, fetched⟩ (by simp)
            have inside : HonestTrace port t := honest.sub fun e h => by simp [h]
            dsimp only [Option.bind] at continued
            cases known : find i with
            | some definition =>
                rw [known] at continued
                obtain ⟨t₁, t₂, v, rfl, computed, last⟩ := exec_bind.mp continued
                obtain ⟨-, rfl⟩ := exec_pure.mp last
                exact .found rfl (by simp) ⟨definition, t₁, known, fun e h => by simp [h], computed⟩
            | none =>
                rw [known] at continued
                have tiles := G.tiled b hb
                have bounds := tiles.bounds member
                have below : before (G.tile b) i.ea = pre :=
                  G.before_split hb (show G.tile b = pre ++ i :: rest by simp [split])
                rw [G.heads b hb i.ea bounds.1 bounds.2.le, below] at continued
                have earlier := @ih pre (i :: rest) (by simp [split]) t inside continued
                have sub : t ⊆ ⟨.step, true⟩ :: ⟨.get i.ea, some i⟩ :: t := fun e h => by simp [h]
                cases earlier.weaken sub with
                | refused refused => exact .refused refused
                | @found pre' post j v same clear found =>
                    have same' : pre ++ [i] = pre' ++ j :: (post ++ [i]) := by simp [same]
                    refine .found same' (fun k member => ?_) found
                    rcases List.mem_append.mp member with early | late
                    · exact clear k early
                    · rw [List.mem_singleton.mp late, Defines, known]
                      simp
                | exhausted clear =>
                    refine .exhausted fun k member => ?_
                    rcases List.mem_append.mp member with early | late
                    · exact clear k early
                    · rw [List.mem_singleton.mp late, Defines, known]
                      simp

/-! ## One block of the walk -/

variable {ρ : Type} {paths : Paths ρ} {loops : Nat}

/-- What walking a block backward from `boundary` can return, in terms of the walks of
its predecessors. -/
inductive Walked (G : ConsistentCfg port funcEa) (paths : Paths ρ)
    (find : Instruction → Option (Query ValueLattice)) (loops bound : Nat)
    (t : List (Event Resolver)) (boundary : Nat) (b : BasicBlockInfo) (visited : List Nat) :
    ρ → Prop
  | refused : RefusedOn t → Walked G paths find loops bound t boundary b visited
      (paths.ofValue budgetExceeded)
  | found {pre post : List Instruction} {i : Instruction} {v : ValueLattice} :
    before (G.tile b) boundary = pre ++ i :: post → (∀ j ∈ post, ¬ Defines find j) →
    Found find t i v → Walked G paths find loops bound t boundary b visited (paths.ofValue v)
  | cycle : (∀ j ∈ before (G.tile b) boundary, ¬ Defines find j) → b.startEa ∈ visited →
    Walked G paths find loops bound t boundary b visited paths.cycle
  | source : (∀ j ∈ before (G.tile b) boundary, ¬ Defines find j) →
    G.cfg.predecessors b = [] →
    Walked G paths find loops bound t boundary b visited paths.noPredecessor
  | joined {results : List ρ} : (∀ j ∈ before (G.tile b) boundary, ¬ Defines find j) →
    G.cfg.predecessors b ≠ [] →
    List.Forall₂ (fun p r => ∃ t' ⊆ t, Exec (walkBlock paths port G.cfg find loops bound
      p.endEa p (b.startEa :: visited)) t' r) (G.cfg.predecessors b) results →
    Walked G paths find loops bound t boundary b visited (paths.join results)

/-- What a walk does at a block, read off its trace. -/
theorem walked_of_exec {b : BasicBlockInfo} (hb : b ∈ G.cfg.blocks) {boundary bound : Nat}
    (lo : b.startEa ≤ boundary) (hi : boundary ≤ b.endEa) {visited : List Nat}
    {t : List (Event Resolver)} {w : ρ} (honest : HonestTrace port t)
    (run : Exec (walkBlock paths port G.cfg find loops (bound + 1) boundary b visited) t w) :
    Walked G paths find loops bound t boundary b visited w := by
  simp only [walkBlock, bind_eq, Query.stepBlock_bind, Query.mark_bind] at run
  obtain ⟨t₁, t₂, s, rfl, scan, run⟩ := exec_bind.mp run
  have head : ∃ rest, G.tile b = before (G.tile b) boundary ++ rest := by
    obtain ⟨rest, same⟩ := (G.tiled b hb).before_extends boundary
    exact ⟨rest, same.symm⟩
  obtain ⟨rest, split⟩ := head
  rw [G.heads b hb boundary lo hi] at scan
  have scanned := scanned_of_exec hb split (honest.sub (by simp)) scan
  cases scanned with
  | refused refused =>
      obtain ⟨rfl, rfl⟩ := exec_pure.mp run
      exact .refused (refused.weaken (by simp))
  | found same clear found =>
      obtain ⟨rfl, rfl⟩ := exec_pure.mp run
      exact .found same clear (found.weaken (by simp))
  | exhausted clear =>
      dsimp only at run
      by_cases seen : b.startEa ∈ visited
      · rw [if_pos seen] at run
        obtain ⟨rfl, rfl⟩ := exec_pure.mp run
        exact .cycle clear seen
      · rw [if_neg seen] at run
        by_cases source : G.cfg.predecessors b = []
        · rw [if_pos source] at run
          obtain ⟨rfl, rfl⟩ := exec_pure.mp run
          exact .source clear source
        · rw [if_neg source] at run
          obtain ⟨ok, t₃, rfl, asked⟩ := exec_call.mp run
          cases ok with
          | false =>
              rw [if_neg Bool.false_ne_true] at asked
              obtain ⟨rfl, rfl⟩ := exec_pure.mp asked
              exact .refused ⟨⟨.stepBlock, false⟩, by simp, rfl⟩
          | true =>
              rw [if_pos rfl] at asked
              obtain ⟨_, t₄, rfl, marked⟩ := exec_call.mp asked
              obtain ⟨t₅, t₆, results, rfl, each, last⟩ := exec_bind.mp marked
              obtain ⟨rfl, rfl⟩ := exec_pure.mp last
              refine .joined clear source ((exec_traverse each).imp ?_)
              intro p r given
              rcases given with ⟨t', sub, walk⟩
              exact ⟨t', fun e member => by simp [sub member], walk⟩

/-! ## From paths to results -/

/-- What a block must offer for its walk to report something in `cov`: it has no
predecessor, or a predecessor ends in a definition whose value is in `cov`. -/
def Offers (G : ConsistentCfg port funcEa) (paths : Paths ρ)
    (find : Instruction → Option (Query ValueLattice)) (t : List (Event Resolver))
    (cov : ρ → Prop) (c : BasicBlockInfo) : Prop :=
  (G.cfg.predecessors c = [] ∧ cov paths.noPredecessor) ∨
    ∃ p ∈ G.cfg.predecessors c, ∃ pre i post, G.tile p = pre ++ i :: post ∧ Defines find i ∧
      (∀ j ∈ post, ¬ Defines find j) ∧ ∀ v, Found find t i v → cov (paths.ofValue v)

/-- What is offered in a longer trace is offered in a shorter one. -/
theorem Offers.anti {cov : ρ → Prop} {c : BasicBlockInfo} {t t' : List (Event Resolver)}
    (offers : Offers G paths find t cov c) (sub : t' ⊆ t) : Offers G paths find t' cov c := by
  rcases offers with source | ⟨p, pred, pre, i, post, split, defines, clear, each⟩
  · exact Or.inl source
  · exact Or.inr ⟨p, pred, pre, i, post, split, defines, clear,
      fun v found => each v (found.weaken sub)⟩

/-- The last definition of a list is unique. -/
theorem last_unique {D : Instruction → Prop} {pre pre' post post' : List Instruction}
    {i i' : Instruction} (same : pre ++ i :: post = pre' ++ i' :: post') (holds : D i)
    (holds' : D i') (clear : ∀ j ∈ post, ¬ D j) (clear' : ∀ j ∈ post', ¬ D j) : i = i' := by
  rcases List.append_eq_append_iff.mp same with ⟨mid, rfl, tail⟩ | ⟨mid, rfl, tail⟩
  · cases mid with
    | nil => exact (List.cons.inj tail).1
    | cons x mid =>
        have last : i' ∈ post := by
          rw [(List.cons.inj tail).2]
          simp
        exact (clear i' last holds').elim
  · cases mid with
    | nil => exact (List.cons.inj tail).1.symm
    | cons x mid =>
        have last : i ∈ post' := by
          rw [(List.cons.inj tail).2]
          simp
        exact (clear' i last holds).elim

theorem exists_of_forall₂ {α β : Type} {R : α → β → Prop} {xs : List α} {ys : List β}
    (h : List.Forall₂ R xs ys) {x : α} (member : x ∈ xs) : ∃ y ∈ ys, R x y := by
  induction h with
  | nil => cases member
  | @cons x' y xs ys related _ ih =>
      rcases List.mem_cons.mp member with rfl | later
      · exact ⟨y, by simp, related⟩
      · obtain ⟨z, inside, related⟩ := ih later
        exact ⟨z, by simp [inside], related⟩

section Covers

variable {cov : ρ → Prop} (refused : cov (paths.ofValue budgetExceeded))
variable (joins : ∀ results r, r ∈ results → cov r → cov (paths.join results))
include refused

/-- A walk that starts at a last definition reports its value. -/
theorem covers_of_here {b : BasicBlockInfo} (hb : b ∈ G.cfg.blocks) {boundary bound : Nat}
    (lo : b.startEa ≤ boundary) (hi : boundary ≤ b.endEa) {visited : List Nat}
    {t : List (Event Resolver)} {w : ρ} (honest : HonestTrace port t)
    (run : Exec (walkBlock paths port G.cfg find loops bound boundary b visited) t w)
    {pre post : List Instruction} {i : Instruction}
    (split : before (G.tile b) boundary = pre ++ i :: post) (defines : Defines find i)
    (clear : ∀ j ∈ post, ¬ Defines find j)
    (each : ∀ v, Found find t i v → cov (paths.ofValue v)) : cov w := by
  cases bound with
  | zero => exact (not_exec_diverge run).elim
  | succ bound =>
      have member : i ∈ before (G.tile b) boundary := by simp [split]
      -- every other branch would have scanned past the definition
      cases walked_of_exec hb lo hi honest run with
      | refused => exact refused
      | @found pre' post' i' v split' clear' found =>
          rw [split] at split'
          obtain rfl := last_unique split' defines found.defines clear clear'
          exact each v found
      | cycle none => exact (none i member defines).elim
      | source none => exact (none i member defines).elim
      | joined none => exact (none i member defines).elim

include joins

/-- Along a simple path of clear blocks the walk reaches what its first block offers. -/
theorem covers_of_simple {visited : List Nat} {b c : BasicBlockInfo} (hb : b ∈ G.cfg.blocks)
    (hc : c ∈ G.cfg.blocks)
    (path : SearchPath.Simple (G.ClearEdge (Defines find)) {n | n ∈ visited} c.startEa b.startEa)
    {boundary bound : Nat} (lo : b.startEa ≤ boundary) (hi : boundary ≤ b.endEa)
    (clear : ∀ j ∈ before (G.tile b) boundary, ¬ Defines find j)
    {t : List (Event Resolver)} {w : ρ} (honest : HonestTrace port t)
    (offers : Offers G paths find t cov c)
    (run : Exec (walkBlock paths port G.cfg find loops bound boundary b visited) t w) : cov w := by
  generalize start : b.startEa = n at path
  generalize source : c.startEa = m at path
  generalize seen : {n | n ∈ visited} = V at path
  induction path generalizing b visited boundary bound t w with
  | refl fresh =>
      obtain rfl := G.eq_of_startEa hb hc (start.trans source.symm)
      subst seen start
      cases bound with
      | zero => exact (not_exec_diverge run).elim
      | succ bound =>
          cases walked_of_exec hb lo hi honest run with
          | refused => exact refused
          | @found pre post i v split _ found =>
              exact (clear i (by simp [split]) found.defines).elim
          | cycle _ again => exact (fresh again).elim
          | source _ empty =>
              rcases offers with ⟨-, covered⟩ | ⟨p, pred, -⟩
              · exact covered
              · rw [empty] at pred
                cases pred
          | @joined results _ some' each =>
              rcases offers with ⟨empty, -⟩ | ⟨p, pred, pre, i, post, split, defines, after, values⟩
              · exact (some' empty).elim
              · obtain ⟨r, member, t', sub, walk⟩ := exists_of_forall₂ each pred
                have hp := (G.mem_predecessors_iff.mp pred).1
                have whole : before (G.tile p) p.endEa = pre ++ i :: post := by
                  rw [G.before_endEa hp, split]
                exact joins results r member
                  (covers_of_here refused hp (G.nonempty p hp).le (Nat.le_refl _)
                    (honest.sub sub) walk whole defines after
                    fun v found => values v (found.weaken sub))
  | @step V c' x y fresh arrow rest ih =>
      obtain ⟨p, b', rfl, same, hb', pred, pClear⟩ := arrow
      obtain rfl := G.eq_of_startEa hb' hb (same.trans start.symm)
      subst seen start
      cases bound with
      | zero => exact (not_exec_diverge run).elim
      | succ bound =>
          cases walked_of_exec hb lo hi honest run with
          | refused => exact refused
          | @found pre post i v split _ found =>
              exact (clear i (by simp [split]) found.defines).elim
          | cycle _ again => exact (fresh again).elim
          | source _ empty =>
              rw [empty] at pred
              cases pred
          | @joined results _ _ each =>
              obtain ⟨r, member, t', sub, walk⟩ := exists_of_forall₂ each pred
              have hp := (G.mem_predecessors_iff.mp pred).1
              refine joins results r member
                (ih hp (G.nonempty p hp).le (Nat.le_refl _) ?_ (honest.sub sub)
                  (offers.anti sub) walk rfl source ?_)
              · rwa [G.before_endEa hp]
              · ext n
                simp

variable (cov)

/-- The value of a last definition shows in what the walk reports. -/
theorem covers_of_lastDef {b : BasicBlockInfo} (hb : b ∈ G.cfg.blocks) {boundary bound : Nat}
    (lo : b.startEa ≤ boundary) (hi : boundary ≤ b.endEa) {i : Instruction}
    (last : G.LastDef (Defines find) boundary b i) {t : List (Event Resolver)} {w : ρ}
    (honest : HonestTrace port t)
    (run : Exec (walkBlock paths port G.cfg find loops bound boundary b []) t w)
    (each : ∀ v, Found find t i v → cov (paths.ofValue v)) : cov w := by
  rcases last.simple hb with ⟨pre, post, split, defines, clear⟩ |
    ⟨clear, c, hc, path, p, pred, pre, post, split, defines, after⟩
  · exact covers_of_here refused hb lo hi honest run split defines clear each
  · have offers : Offers G paths find t cov c :=
      Or.inr ⟨p, pred, pre, i, post, split, defines, after, each⟩
    exact covers_of_simple refused joins hb hc (by simpa using path) lo hi clear honest offers run

/-- A path on which nothing is written shows in what the walk reports. -/
theorem covers_of_unwritten {b : BasicBlockInfo} (hb : b ∈ G.cfg.blocks) {boundary bound : Nat}
    (lo : b.startEa ≤ boundary) (hi : boundary ≤ b.endEa)
    (unwritten : G.Unwritten (Defines find) boundary b) {t : List (Event Resolver)} {w : ρ}
    (honest : HonestTrace port t)
    (run : Exec (walkBlock paths port G.cfg find loops bound boundary b []) t w)
    (covered : cov paths.noPredecessor) : cov w := by
  obtain ⟨clear, c, hc, path, source⟩ := unwritten.simple hb
  exact covers_of_simple refused joins hb hc (by simpa using path) lo hi clear honest
    (Or.inl ⟨source, covered⟩) run

end Covers

/-! ## From results to paths -/

/-- A relation between uses and results that holds at the end of every path, and that
joins keep, holds of the result of the walk. -/
theorem walkBlock_witnessed (wit : Nat → BasicBlockInfo → ρ → Prop)
    {t : List (Event Resolver)}
    (refused : RefusedOn t → ∀ boundary b, wit boundary b (paths.ofValue budgetExceeded))
    (found : ∀ {boundary : Nat} {b : BasicBlockInfo} {pre post : List Instruction}
      {i : Instruction} {v : ValueLattice}, b ∈ G.cfg.blocks →
      before (G.tile b) boundary = pre ++ i :: post → (∀ j ∈ post, ¬ Defines find j) →
      Found find t i v → wit boundary b (paths.ofValue v))
    (cycle : ∀ boundary b, wit boundary b paths.cycle)
    (source : ∀ {boundary : Nat} {b : BasicBlockInfo},
      (∀ j ∈ before (G.tile b) boundary, ¬ Defines find j) → G.cfg.predecessors b = [] →
      wit boundary b paths.noPredecessor)
    (joined : ∀ {boundary : Nat} {b : BasicBlockInfo} {results : List ρ},
      (∀ j ∈ before (G.tile b) boundary, ¬ Defines find j) → G.cfg.predecessors b ≠ [] →
      List.Forall₂ (fun p r => wit p.endEa p r) (G.cfg.predecessors b) results →
      wit boundary b (paths.join results))
    {b : BasicBlockInfo} (hb : b ∈ G.cfg.blocks) {boundary bound : Nat}
    (lo : b.startEa ≤ boundary) (hi : boundary ≤ b.endEa) {visited : List Nat}
    {t' : List (Event Resolver)} (sub : t' ⊆ t) {w : ρ} (honest : HonestTrace port t)
    (run : Exec (walkBlock paths port G.cfg find loops bound boundary b visited) t' w) :
    wit boundary b w := by
  induction bound generalizing boundary b visited t' w with
  | zero => exact (not_exec_diverge run).elim
  | succ bound ih =>
      cases walked_of_exec hb lo hi (honest.sub sub) run with
      | refused late => exact refused (late.weaken sub) boundary b
      | found split clear value => exact found hb split clear (value.weaken sub)
      | cycle => exact cycle boundary b
      | source clear none => exact source clear none
      | joined clear some' each =>
          apply joined clear some'
          have members : ∀ p ∈ G.cfg.predecessors b, p ∈ G.cfg.blocks :=
            fun p pred => (G.mem_predecessors_iff.mp pred).1
          refine List.Forall₂.imp ?_ ((List.forall₂_and_left _ _).mpr ⟨members, each⟩)
          intro p r step
          rcases step with ⟨hp, t₁, inside, walk⟩
          exact ih hp (G.nonempty p hp).le (Nat.le_refl _) (fun e member =>
            sub (inside member)) walk

end Walk

/-! ## The queries of a resolver -/

section Queries

variable {self : BackwardResolver} {funcEa : Nat} {G : ConsistentCfg self.port funcEa}
variable {loops : Nat} {cb : Callbacks} {t : List (Event Resolver)} {v : ValueLattice}

/-- The block of a use is the one that has its address. -/
theorem useBlock_eq {b : BasicBlockInfo} (hb : b ∈ G.cfg.blocks) {ea : Nat}
    (lo : b.startEa ≤ ea) (hi : ea < b.endEa) : BackwardResolver.useBlock G.cfg ea = some b := by
  have nonempty : G.cfg.isEmpty = false := by
    simpa [CfgModel.isEmpty] using List.ne_nil_of_mem hb
  rw [BackwardResolver.useBlock, nonempty]
  exact G.blockContaining_eq hb lo hi

/-- A register query that is not refused its step reports what the walk from its block finds. -/
theorem resolveRegisterImpl_cases {b : BasicBlockInfo} (hb : b ∈ G.cfg.blocks) {q ea : Nat}
    (lo : b.startEa ≤ ea) (hi : ea < b.endEa) (honest : HonestTrace self.port t)
    (run : Exec (self.resolveRegisterImpl loops cb (some q) ea) t v) :
    (RefusedOn t ∧ v = budgetExceeded) ∨
      ∃ t₁ ⊆ t, ∃ w, Exec (self.walkRegisterBlock cb loops q ea b funcEa G.cfg) t₁ w ∧
        (w = .value v ∨ w = .cycle ∧
          v = .unknown .noDefinitionFound "every path into this block loops back") := by
  simp only [BackwardResolver.resolveRegisterImpl, bind_eq, Query.step_bind,
    Query.funcEaFor_bind, Query.cfgFor_bind] at run
  rcases exec_call.mp run with ⟨ok, t₀, rfl, asked⟩
  cases ok with
  | false =>
      rw [if_neg Bool.false_ne_true] at asked
      rcases exec_pure.mp asked with ⟨-, rfl⟩
      exact Or.inl ⟨⟨⟨.step, false⟩, by simp, rfl⟩, rfl⟩
  | true =>
      rw [if_pos rfl] at asked
      rcases exec_call.mp asked with ⟨owner, t₂, rfl, owned⟩
      have owns : owner = some funcEa :=
        (honest ⟨.funcEaFor ea, owner⟩ (by simp)).trans (G.owner b hb ea lo hi)
      subst owns
      rcases exec_call.mp owned with ⟨cfg, t₃, rfl, known⟩
      have same : cfg = G.cfg := honest ⟨.cfgFor funcEa, cfg⟩ (by simp)
      subst same
      rw [useBlock_eq hb lo hi] at known
      rcases exec_bind.mp known with ⟨t₄, t₅, w, rfl, walked, last⟩
      refine Or.inr ⟨t₄, fun e member => by simp [member], w, walked, ?_⟩
      cases w with
      | value u =>
          rcases exec_pure.mp last with ⟨-, rfl⟩
          exact Or.inl rfl
      | cycle =>
          rcases exec_pure.mp last with ⟨-, rfl⟩
          exact Or.inr ⟨rfl, rfl⟩

/-- A memory query that is not refused its step is one search, with the fallback when it finds
no write. -/
theorem resolveMemoryImpl_cases {b : BasicBlockInfo} (hb : b ∈ G.cfg.blocks)
    {base : Option Nat} {disp : Int} {size ea : Nat} (lo : b.startEa ≤ ea) (hi : ea < b.endEa)
    (honest : HonestTrace self.port t)
    (run : Exec (self.resolveMemoryImpl loops cb base disp ea size) t v) :
    (RefusedOn t ∧ v = budgetExceeded) ∨
      ∃ t₁ ⊆ t, ∃ w, Exec (self.walkMemoryBlock cb loops
          (memoryLocation self.port base disp ea funcEa) ea b funcEa G.cfg) t₁ w ∧
        (w = .value v ∨ (w = .notFound ∨ w = .cycle) ∧ ∃ t₂ ⊆ t,
          Exec (self.fallbackDereference loops cb base disp ea size) t₂ v) := by
  simp only [BackwardResolver.resolveMemoryImpl, bind_eq, Query.step_bind] at run
  rcases exec_call.mp run with ⟨ok, t₀, rfl, asked⟩
  cases ok with
  | false =>
      rw [if_neg Bool.false_ne_true] at asked
      rcases exec_pure.mp asked with ⟨-, rfl⟩
      exact Or.inl ⟨⟨⟨.step, false⟩, by simp, rfl⟩, rfl⟩
  | true =>
      rw [if_pos rfl] at asked
      rcases exec_bind.mp asked with ⟨t₁, t₂, w, rfl, searched, rest⟩
      simp only [BackwardResolver.searchMemory, bind_eq, Query.funcEaFor_bind,
        Query.cfgFor_bind] at searched
      rcases exec_call.mp searched with ⟨owner, t₃, rfl, owned⟩
      have owns : owner = some funcEa :=
        (honest ⟨.funcEaFor ea, owner⟩ (by simp)).trans (G.owner b hb ea lo hi)
      subst owns
      rcases exec_call.mp owned with ⟨cfg, t₄, rfl, known⟩
      have same : cfg = G.cfg := honest ⟨.cfgFor funcEa, cfg⟩ (by simp)
      subst same
      rw [useBlock_eq hb lo hi] at known
      refine Or.inr ⟨t₄, fun e member => by simp [member], w, known, ?_⟩
      cases w with
      | value u =>
          rcases exec_pure.mp rest with ⟨-, rfl⟩
          exact Or.inl rfl
      | notFound => exact Or.inr ⟨Or.inl rfl, t₂, fun e member => by simp [member], rest⟩
      | cycle => exact Or.inr ⟨Or.inr rfl, t₂, fun e member => by simp [member], rest⟩

end Queries

end IDAnalysister
