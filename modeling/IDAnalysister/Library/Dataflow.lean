import Mathlib.Logic.Relation
import Mathlib.Order.Bounds.Basic

/-!
# Worklist iteration over a preorder

A system of monotone transfers on a graph and the iteration that computes its greatest
solution from above: visit a node, replace its fact by a greatest lower bound of what
its visited predecessors pass on, and put its successors on the list. The order in
which nodes are visited is arbitrary, predecessors that were not visited yet are
ignored, and a node may also be dropped without being looked at. What the iteration
has found at the end depends on the nodes that were dropped.
-/

namespace Dataflow

variable {V L : Type} [Preorder L]

structure System (V L : Type) [Preorder L] where
  /-- `pred p v`: there is an edge from `p` to `v`. -/
  pred : V → V → Prop
  entry : V
  /-- What holds at the entry, whatever leads back to it. -/
  seed : L
  transfer : V → L → L
  mono : ∀ v, Monotone (transfer v)

namespace System

variable (S : System V L)

/-- A node that some path from the entry leads to. -/
def Reachable (v : V) : Prop := Relation.ReflTransGen S.pred S.entry v

/-- What the visited predecessors of a node pass on to it. -/
def incoming (facts : V → Option L) (v : V) : Set L :=
  {y | ∃ p x, S.pred p v ∧ facts p = some x ∧ S.transfer p x = y}

/-- The fact at a node, if it has one, is below all that its predecessors pass on. -/
def Stable (facts : V → Option L) (v : V) : Prop :=
  ∀ x, facts v = some x → x ∈ lowerBounds (S.incoming facts v)

/-- A node has been visited if anything leads to it. -/
def Covered (facts : V → Option L) (v : V) : Prop :=
  v = S.entry ∨ (S.incoming facts v).Nonempty → (facts v).isSome

/-- What the iteration has found, and the nodes still to be looked at. -/
structure Progress (V L : Type) where
  facts : V → Option L
  pending : Set V

/-- The fact that a visit may give to a node. -/
def Admits (facts : V → Option L) (v : V) (x : L) : Prop :=
  v = S.entry ∧ x = S.seed ∨
    v ≠ S.entry ∧ (S.incoming facts v).Nonempty ∧ IsGLB (S.incoming facts v) x

/-- One visit. `dropped` says what is known of a node whose fact is left as it is. -/
inductive Step [DecidableEq V] (dropped : (V → Option L) → V → Prop) :
    Progress V L → Progress V L → Prop
  | drop {σ : Progress V L} {pending : Set V} {v : V} : dropped σ.facts v →
    (∀ u ∈ σ.pending, u ≠ v → u ∈ pending) → Step dropped σ ⟨σ.facts, pending⟩
  | update {σ : Progress V L} {pending : Set V} {v : V} {x : L} : S.Admits σ.facts v x →
    (∀ u ∈ σ.pending, u ≠ v → u ∈ pending) → (∀ u, S.pred v u → u ∈ pending) →
    Step dropped σ ⟨Function.update σ.facts v (some x), pending⟩

/-- What holds of the facts however the nodes are visited or dropped. -/
structure Descending (facts : V → Option L) : Prop where
  entry : ∀ x, facts S.entry = some x → x = S.seed
  reachable : ∀ v x, facts v = some x → S.Reachable v
  supported : ∀ v, v ≠ S.entry → ∀ x, facts v = some x → (S.incoming facts v).Nonempty
  /-- A node may only go down from its fact. -/
  above : ∀ v, v ≠ S.entry → ∀ x, facts v = some x →
    ∀ z ∈ lowerBounds (S.incoming facts v), z ≤ x

/-! ## Facts only go down -/

/-- Every fact stays or is replaced by a lower one. -/
def Lowers (facts facts' : V → Option L) : Prop :=
  ∀ v x, facts v = some x → ∃ x', facts' v = some x' ∧ x' ≤ x

variable {S} {facts facts' : V → Option L} {u v : V} {x y : L}

theorem incoming_nonempty_of_lowers (lowers : Lowers facts facts')
    (nonempty : (S.incoming facts v).Nonempty) : (S.incoming facts' v).Nonempty := by
  rcases nonempty with ⟨_, p, x, edge, found, rfl⟩
  rcases lowers p x found with ⟨x', found', _⟩
  exact ⟨_, p, x', edge, found', rfl⟩

theorem lowerBounds_of_lowers (lowers : Lowers facts facts')
    (bound : y ∈ lowerBounds (S.incoming facts' v)) : y ∈ lowerBounds (S.incoming facts v) := by
  intro _ given
  rcases given with ⟨p, x, edge, found, rfl⟩
  rcases lowers p x found with ⟨x', found', le⟩
  have below : y ≤ S.transfer p x' := bound ⟨p, x', edge, found', rfl⟩
  exact below.trans (S.mono p le)

section Update

variable [DecidableEq V]

omit [Preorder L] in
/-- After an update a fact is the new one or an old one. -/
theorem of_update_eq_some (found : Function.update facts v (some x) u = some y) :
    u = v ∧ y = x ∨ u ≠ v ∧ facts u = some y := by
  by_cases same : u = v
  · subst same
    rw [Function.update_self] at found
    cases found
    exact Or.inl ⟨rfl, rfl⟩
  · rw [Function.update_of_ne same] at found
    exact Or.inr ⟨same, found⟩

/-- An update lowers the facts, as nothing was below what the node may receive. -/
theorem Descending.lowers (descending : S.Descending facts) (admits : S.Admits facts v x) :
    Lowers facts (Function.update facts v (some x)) := by
  intro u y found
  by_cases same : u = v
  · subst same
    refine ⟨x, Function.update_self .., ?_⟩
    rcases admits with ⟨rfl, rfl⟩ | ⟨other, _, glb⟩
    · rw [descending.entry y found]
    · exact descending.above u other y found x glb.1
  · exact ⟨y, by rw [Function.update_of_ne same, found], le_refl y⟩

theorem Descending.update (descending : S.Descending facts) (admits : S.Admits facts v x) :
    S.Descending (Function.update facts v (some x)) := by
  have lowers := descending.lowers admits
  constructor
  · intro y found
    rcases of_update_eq_some found with ⟨same, rfl⟩ | ⟨_, found⟩
    · rcases admits with ⟨_, rfl⟩ | ⟨other, _, _⟩
      · rfl
      · exact (other same.symm).elim
    · exact descending.entry y found
  · intro u y found
    rcases of_update_eq_some found with ⟨rfl, _⟩ | ⟨_, found⟩
    · rcases admits with ⟨rfl, _⟩ | ⟨_, ⟨_, p, z, edge, visited, _⟩, _⟩
      · exact .refl
      · exact (descending.reachable p z visited).tail edge
    · exact descending.reachable u y found
  · intro u other y found
    rcases of_update_eq_some found with ⟨rfl, _⟩ | ⟨_, found⟩
    · rcases admits with ⟨entry, _⟩ | ⟨_, nonempty, _⟩
      · exact (other entry).elim
      · exact incoming_nonempty_of_lowers lowers nonempty
    · exact incoming_nonempty_of_lowers lowers (descending.supported u other y found)
  · intro u other y found z bound
    have bound' := lowerBounds_of_lowers lowers bound
    rcases of_update_eq_some found with ⟨rfl, rfl⟩ | ⟨_, found⟩
    · rcases admits with ⟨entry, _⟩ | ⟨_, _, glb⟩
      · exact (other entry).elim
      · exact glb.2 bound'
    · exact descending.above u other y found z bound'

/-- What a node receives is not affected by the update of a node that is no
predecessor of it. -/
theorem incoming_update (apart : ¬ S.pred v u) :
    S.incoming (Function.update facts v (some x)) u = S.incoming facts u := by
  ext y
  constructor
  · intro given
    rcases given with ⟨p, z, edge, found, rfl⟩
    have other : p ≠ v := by
      intro same
      exact apart (same ▸ edge)
    rw [Function.update_of_ne other] at found
    exact ⟨p, z, edge, found, rfl⟩
  · intro given
    rcases given with ⟨p, z, edge, found, rfl⟩
    have other : p ≠ v := by
      intro same
      exact apart (same ▸ edge)
    exact ⟨p, z, edge, by rw [Function.update_of_ne other, found], rfl⟩

/-! ## Invariants of the iteration -/

variable {dropped : (V → Option L) → V → Prop} {σ τ : Progress V L}

theorem Step.descending (step : S.Step dropped σ τ) (descending : S.Descending σ.facts) :
    S.Descending τ.facts := by
  cases step with
  | drop => exact descending
  | update admits => exact descending.update admits

theorem Step.lowers (step : S.Step dropped σ τ) (descending : S.Descending σ.facts) :
    Lowers σ.facts τ.facts := by
  cases step with
  | drop => exact fun v x found => ⟨x, found, le_refl x⟩
  | update admits => exact descending.lowers admits

/-- Every node apart from the entry is stable or still to be looked at. -/
def Settling (S : System V L) (σ : Progress V L) : Prop :=
  ∀ v, v ≠ S.entry → v ∈ σ.pending ∨ S.Stable σ.facts v

theorem Step.settling (step : S.Step dropped σ τ)
    (stable : ∀ facts v, v ≠ S.entry → dropped facts v → S.Stable facts v)
    (settling : S.Settling σ) : S.Settling τ := by
  intro u other
  cases step with
  | @drop pending v known kept =>
      by_cases same : u = v
      · subst same
        exact Or.inr (stable σ.facts u other known)
      · rcases settling u other with waiting | done
        · exact Or.inl (kept u waiting same)
        · exact Or.inr done
  | @update pending v x admits kept pushed =>
      change u ∈ pending ∨ S.Stable (Function.update σ.facts v (some x)) u
      by_cases edge : S.pred v u
      · exact Or.inl (pushed u edge)
      · by_cases same : u = v
        · subst same
          right
          intro y found
          rw [Function.update_self] at found
          cases found
          rw [incoming_update edge]
          rcases admits with ⟨entry, _⟩ | ⟨_, _, glb⟩
          · exact (other entry).elim
          · exact glb.1
        · rcases settling u other with waiting | done
          · exact Or.inl (kept u waiting same)
          · right
            intro y found
            rw [Function.update_of_ne same] at found
            rw [incoming_update edge]
            exact done y found

/-- Every node that something leads to has been visited or is still to be looked at. -/
def Covering (S : System V L) (σ : Progress V L) : Prop :=
  ∀ v, v ∈ σ.pending ∨ S.Covered σ.facts v

theorem Step.covering (step : S.Step dropped σ τ)
    (covered : ∀ facts v, dropped facts v → S.Covered facts v)
    (covering : S.Covering σ) : S.Covering τ := by
  intro u
  cases step with
  | @drop pending v known kept =>
      by_cases same : u = v
      · subst same
        exact Or.inr (covered σ.facts u known)
      · rcases covering u with waiting | done
        · exact Or.inl (kept u waiting same)
        · exact Or.inr done
  | @update pending v x admits kept pushed =>
      change u ∈ pending ∨ S.Covered (Function.update σ.facts v (some x)) u
      by_cases edge : S.pred v u
      · exact Or.inl (pushed u edge)
      · by_cases same : u = v
        · subst same
          right
          intro _
          rw [Function.update_self]
          rfl
        · rcases covering u with waiting | done
          · exact Or.inl (kept u waiting same)
          · right
            intro reached
            rw [incoming_update edge] at reached
            rw [Function.update_of_ne same]
            exact done reached

end Update

/-! ## The greatest solution -/

/-- One fact a node: the seed at the entry, and elsewhere a greatest lower bound of what
the reachable predecessors pass on. -/
structure IsSolution (S : System V L) (X : V → L) : Prop where
  entry_le : X S.entry ≤ S.seed
  le_entry : S.seed ≤ X S.entry
  glb : ∀ v, v ≠ S.entry → S.Reachable v →
    IsGLB {y | ∃ p, S.pred p v ∧ S.Reachable p ∧ S.transfer p (X p) = y} (X v)

/-- Every fact found so far is above every solution. -/
def AboveSolutions (S : System V L) (facts : V → Option L) : Prop :=
  ∀ X, S.IsSolution X → ∀ v x, facts v = some x → X v ≤ x

theorem Step.aboveSolutions [DecidableEq V] {dropped : (V → Option L) → V → Prop}
    {σ τ : Progress V L} (step : S.Step dropped σ τ) (descending : S.Descending σ.facts)
    (above : S.AboveSolutions σ.facts) : S.AboveSolutions τ.facts := by
  have reachable := (step.descending descending).reachable
  cases step with
  | drop => exact above
  | @update pending v x admits kept pushed =>
      intro X solution u y found
      have reached := reachable u y found
      change Function.update σ.facts v (some x) u = some y at found
      by_cases same : u = v
      · subst same
        rw [Function.update_self] at found
        cases found
        rcases admits with ⟨rfl, rfl⟩ | ⟨other, _, glb⟩
        · exact solution.entry_le
        · apply glb.2
          intro _ given
          rcases given with ⟨p, z, edge, visited, rfl⟩
          have passed : X u ≤ S.transfer p (X p) :=
            (solution.glb u other reached).1 ⟨p, edge, descending.reachable p z visited, rfl⟩
          exact passed.trans (S.mono p (above X solution p z visited))
      · rw [Function.update_of_ne same] at found
        exact above X solution u y found

/-- The facts once nothing is left to be looked at. -/
structure Final (S : System V L) (facts : V → Option L) : Prop where
  descending : S.Descending facts
  stable : ∀ v, v ≠ S.entry → S.Stable facts v
  covered : ∀ v, S.Covered facts v

theorem Final.isSome (final : S.Final facts) (reachable : S.Reachable v) :
    (facts v).isSome := by
  induction reachable with
  | refl => exact final.covered S.entry (Or.inl rfl)
  | tail _ edge ih =>
      rcases Option.isSome_iff_exists.mp ih with ⟨x, found⟩
      exact final.covered _ (Or.inr ⟨_, _, x, edge, found, rfl⟩)

/-- The final facts are a solution. -/
theorem Final.isSolution (final : S.Final facts) {X : V → L}
    (agrees : ∀ v x, facts v = some x → X v = x) : S.IsSolution X := by
  have found : ∀ v, S.Reachable v → facts v = some (X v) := by
    intro v reachable
    rcases Option.isSome_iff_exists.mp (final.isSome reachable) with ⟨x, found⟩
    rw [found, agrees v x found]
  have entry := final.descending.entry _ (found S.entry .refl)
  refine ⟨entry.le, entry.ge, ?_⟩
  intro v other reachable
  -- the visited predecessors are the reachable ones
  have same : {y | ∃ p, S.pred p v ∧ S.Reachable p ∧ S.transfer p (X p) = y} =
      S.incoming facts v := by
    ext y
    constructor
    · intro given
      rcases given with ⟨p, edge, reached, rfl⟩
      exact ⟨p, X p, edge, found p reached, rfl⟩
    · intro given
      rcases given with ⟨p, x, edge, visited, rfl⟩
      exact ⟨p, edge, final.descending.reachable p x visited, by rw [agrees p x visited]⟩
  rw [same]
  exact ⟨final.stable v other _ (found v reachable),
    final.descending.above v other _ (found v reachable)⟩

/-! ## Facts along paths -/

/-- `Along v x`: the transfers along some path from the entry lead from the seed to `x`
at `v`. -/
inductive Along (S : System V L) : V → L → Prop
  | entry : Along S S.entry S.seed
  | step {p v : V} {x : L} : Along S p x → S.pred p v → Along S v (S.transfer p x)

/-- Stable facts hold along every path, if the paths that come back to the entry leave
the seed in force. -/
theorem Final.sound (final : S.Final facts) (back : ∀ x, S.Along S.entry x → S.seed ≤ x)
    (along : S.Along v x) : ∃ y, facts v = some y ∧ y ≤ x := by
  induction along with
  | entry =>
      rcases Option.isSome_iff_exists.mp (final.isSome .refl) with ⟨y, found⟩
      exact ⟨y, found, (final.descending.entry y found).le⟩
  | @step p v x along edge ih =>
      rcases ih with ⟨y, found, le⟩
      have passed : S.transfer p y ∈ S.incoming facts v := ⟨p, y, edge, found, rfl⟩
      have visited := final.covered v (Or.inr ⟨_, passed⟩)
      rcases Option.isSome_iff_exists.mp visited with ⟨z, found'⟩
      refine ⟨z, found', ?_⟩
      by_cases entry : v = S.entry
      · subst entry
        rw [final.descending.entry z found']
        exact back _ (.step along edge)
      · exact (final.stable v entry z found' passed).trans (S.mono p le)

end System

end Dataflow
