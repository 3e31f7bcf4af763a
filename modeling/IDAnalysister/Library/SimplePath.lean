import Mathlib.Data.Set.Insert
import Mathlib.Logic.Relation

/-!
# Simple paths for a search that drops cycles

A depth-first search that walks edges backward and abandons a path as soon as it
meets a node already on that path only ever follows simple paths.
`Simple edge V c b` is the shape of such a path: it leads from `c` to `b`, is
read from its end `b`, and no node repeats one that was entered before it (`V`
holds the nodes entered so far). `Simple.of_reflTransGen` cuts the cycles out of
an arbitrary path, so what holds along simple paths holds along all of them.
-/

namespace SearchPath

variable {N : Type} {edge : N → N → Prop}

/-- A path from `c` to `b`, read backward from `b`, that enters no node twice and
no node of `V`. -/
inductive Simple (edge : N → N → Prop) : Set N → N → N → Prop
  | refl {V : Set N} {c : N} : c ∉ V → Simple edge V c c
  | step {V : Set N} {c x b : N} :
    b ∉ V → edge x b → Simple edge (insert b V) c x → Simple edge V c b

theorem Simple.anti {V W : Set N} {c b : N} (h : Simple edge W c b) (sub : V ⊆ W) :
    Simple edge V c b := by
  induction h generalizing V with
  | refl fresh => exact .refl fun member => fresh (sub member)
  | step fresh arrow _ ih =>
      exact .step (fun member => fresh (sub member)) arrow (ih (Set.insert_subset_insert sub))

/-- A simple path avoids `y`, or its part up to `y` is a simple path to `y`. -/
theorem Simple.avoid_or_reach {V : Set N} {c b : N} (h : Simple edge V c b) (y : N) :
    Simple edge (insert y V) c b ∨ Simple edge V c y := by
  induction h with
  | @refl V c fresh =>
      by_cases same : c = y
      · subst same
        exact Or.inr (.refl fresh)
      · refine Or.inl (.refl ?_)
        intro given
        rcases given with rfl | member
        · exact same rfl
        · exact fresh member
  | @step V c x b fresh arrow rest ih =>
      by_cases same : b = y
      · subst same
        exact Or.inr (.step fresh arrow rest)
      · rcases ih with avoids | reaches
        · refine Or.inl (.step ?_ arrow ?_)
          · intro given
            rcases given with rfl | member
            · exact same rfl
            · exact fresh member
          · rwa [Set.insert_comm]
        · exact Or.inr (reaches.anti (Set.subset_insert b V))

/-- Every path can be cut down to a simple one. -/
theorem Simple.of_reflTransGen {c b : N} (h : Relation.ReflTransGen edge c b) :
    Simple edge ∅ c b := by
  induction h with
  | refl => exact .refl (Set.notMem_empty c)
  | @tail x b _ arrow ih =>
      rcases ih.avoid_or_reach b with avoids | reaches
      · exact .step (Set.notMem_empty b) arrow avoids
      · exact reaches

end SearchPath
