import Mathlib.Logic.Function.Basic
import Mathlib.Order.Bounds.Basic

/-!
# Worklist iteration with arbitrary transfers

The worklist algorithm when nothing is known of the transfers, not even that they are monotone,
so that facts may go up and down while it runs. A visit leaves a node with a fact below all that
its predecessors pass on at that time, widened or not, and puts its successors on the list. Once
the list is empty every fact is below what is passed on to it, and then the facts abstract every
run of a system whose steps the transfers abstract.
-/

namespace Chaotic

structure Flow (V L : Type) where
  /-- `pred p v`: there is an edge from `p` to `v`. -/
  pred : V → V → Prop
  entry : V
  /-- What holds at the entry, whatever leads back to it. -/
  seed : L
  transfer : V → L → L

namespace Flow

variable {V L S : Type} [Preorder L] (F : Flow V L)

omit [Preorder L] in
/-- What the visited predecessors of a node pass on to it. -/
def passed (facts : V → Option L) (v : V) : Set L :=
  {y | ∃ p x, F.pred p v ∧ facts p = some x ∧ F.transfer p x = y}

/-- The fact claims no more than what is passed on to the node. -/
def Bounded (facts : V → Option L) (v : V) (x : L) : Prop :=
  (v = F.entry → x ≤ F.seed) ∧ (v ≠ F.entry → x ∈ lowerBounds (F.passed facts v))

/-- A node that a visit would tell nothing new: it has a bounded fact, or nothing leads to it. -/
structure Settled (facts : V → Option L) (v : V) : Prop where
  bounded : ∀ x, facts v = some x → F.Bounded facts v x
  covered : v = F.entry ∨ (F.passed facts v).Nonempty → (facts v).isSome

/-- What the iteration has found, and the nodes still to be looked at. -/
structure Progress (V L : Type) where
  facts : V → Option L
  pending : Set V

/-- One visit. -/
inductive Step [DecidableEq V] : Progress V L → Progress V L → Prop
  | drop {σ : Progress V L} {pending : Set V} {v : V} : F.Settled σ.facts v →
    (∀ u ∈ σ.pending, u ≠ v → u ∈ pending) → Step σ ⟨σ.facts, pending⟩
  | update {σ : Progress V L} {pending : Set V} {v : V} {x : L} : F.Bounded σ.facts v x →
    (∀ u ∈ σ.pending, u ≠ v → u ∈ pending) → (∀ u, F.pred v u → u ∈ pending) →
    Step σ ⟨Function.update σ.facts v (some x), pending⟩

/-- Every node is settled or still to be looked at. -/
def Settling (σ : Progress V L) : Prop := ∀ v, v ∈ σ.pending ∨ F.Settled σ.facts v

variable {F} {facts : V → Option L} {u v : V} {x : L} {σ τ : Progress V L}

/-- A node that nothing leads to is settled. -/
theorem settled_of_unreached (other : v ≠ F.entry) (nothing : ∀ y, y ∉ F.passed facts v) :
    F.Settled facts v := by
  constructor
  · exact fun x _ => ⟨fun entry => (other entry).elim, fun _ y passed => (nothing y passed).elim⟩
  · rintro (entry | ⟨y, passed⟩)
    · exact (other entry).elim
    · exact (nothing y passed).elim

section Update

variable [DecidableEq V]

omit [Preorder L] in
/-- What is passed on to a node does not change with the fact of a node that is no
predecessor of it. -/
theorem passed_update (apart : ¬ F.pred v u) :
    F.passed (Function.update facts v (some x)) u = F.passed facts u := by
  have same {p : V} (edge : F.pred p u) : Function.update facts v (some x) p = facts p := by
    refine Function.update_of_ne ?_ _ _
    rintro rfl
    exact apart edge
  ext y
  constructor
  · rintro ⟨p, z, edge, found, rfl⟩
    exact ⟨p, z, edge, by rwa [same edge] at found, rfl⟩
  · rintro ⟨p, z, edge, found, rfl⟩
    exact ⟨p, z, edge, by rwa [same edge], rfl⟩

/-- The update of a node leaves those settled that it does not lead to. -/
theorem Settled.update (settled : F.Settled facts u) (other : u ≠ v) (apart : ¬ F.pred v u) :
    F.Settled (Function.update facts v (some x)) u := by
  have unchanged : Function.update facts v (some x) u = facts u := Function.update_of_ne other _ _
  constructor
  · intro y found
    rw [unchanged] at found
    have bounded := settled.bounded y found
    rwa [Bounded, passed_update apart]
  · rw [unchanged, passed_update apart]
    exact settled.covered

/-- A node that was given a bounded fact is settled, unless it leads to itself. -/
theorem settled_of_update (bounded : F.Bounded facts v x) (apart : ¬ F.pred v v) :
    F.Settled (Function.update facts v (some x)) v := by
  constructor
  · intro y found
    rw [Function.update_self] at found
    obtain rfl := Option.some.inj found
    rwa [Bounded, passed_update apart]
  · intro _
    rw [Function.update_self]
    exact Option.isSome_some

theorem Step.settling (step : F.Step σ τ) (settling : F.Settling σ) : F.Settling τ := by
  intro u
  cases step with
  | @drop pending v settled kept =>
      by_cases same : u = v
      · exact Or.inr (same ▸ settled)
      · rcases settling u with waiting | done
        · exact Or.inl (kept u waiting same)
        · exact Or.inr done
  | @update pending v x bounded kept pushed =>
      by_cases edge : F.pred v u
      · exact Or.inl (pushed u edge)
      · by_cases same : u = v
        · subst same
          exact Or.inr (settled_of_update bounded edge)
        · rcases settling u with waiting | done
          · exact Or.inl (kept u waiting same)
          · exact Or.inr (done.update same edge)

end Update

/-! ## Facts along runs -/

/-- The runs of a system along the edges: `Run step s v t` comes from `s` at the entry to `t`
at `v`, by a step for each node that it leaves. -/
inductive Run (F : Flow V L) (step : V → S → S → Prop) (s : S) : V → S → Prop
  | entry : Run F step s F.entry s
  | step {p v : V} {t t' : S} : Run F step s p t → step p t t' → F.pred p v → Run F step s v t'

variable {step : V → S → S → Prop} {R : L → S → Prop} {s t : S}

/-- If what a fact says survives the transfer of each step, and the seed holds whenever a run is
at the entry, then settled facts hold wherever runs come. -/
theorem simulates (settled : ∀ v, F.Settled facts v)
    (lower : ∀ {x y s}, x ≤ y → R y s → R x s)
    (transfers : ∀ {v x s s'}, R x s → step v s s' → R (F.transfer v x) s')
    (back : ∀ {t}, F.Run step s F.entry t → R F.seed t) (run : F.Run step s v t) :
    ∃ x, facts v = some x ∧ R x t := by
  have atEntry {t : S} (run : F.Run step s F.entry t) : ∃ x, facts F.entry = some x ∧ R x t := by
    rcases Option.isSome_iff_exists.mp ((settled F.entry).covered (Or.inl rfl)) with ⟨x, found⟩
    exact ⟨x, found, lower (((settled F.entry).bounded x found).1 rfl) (back run)⟩
  induction run with
  | entry => exact atEntry .entry
  | @step p v t t' run moved edge ih =>
      by_cases entry : v = F.entry
      · subst entry
        exact atEntry (run.step moved edge)
      · rcases ih with ⟨x, found, holds⟩
        have passed : F.transfer p x ∈ F.passed facts v := ⟨p, x, edge, found, rfl⟩
        rcases Option.isSome_iff_exists.mp ((settled v).covered (Or.inr ⟨_, passed⟩)) with
          ⟨y, found'⟩
        have below := ((settled v).bounded y found').2 entry passed
        exact ⟨y, found', lower below (transfers holds moved)⟩

end Flow

end Chaotic
