import Mathlib.Order.Bounds.Basic
import IDAnalysister.Values

/-!
# Joining values at control-flow merges

`join` and `joinAll` (`core/merge.py`), and the information order they compute the
greatest lower bound of: `unknown` is below everything, a memory reference is
compared at its content, and every other pair of known values is comparable only
when the two carry the same fact.
-/

namespace IDAnalysister

namespace ValueLattice

/-! ## The join of the source -/

def join : ValueLattice → ValueLattice → ValueLattice
  | unknown reason detail, _ => unknown reason detail
  | _, unknown reason detail => unknown reason detail
  | concrete x k, concrete y l =>
      if x = y ∧ k = l then concrete x k
      else unknown .divergentPaths (x.repr ++ " vs " ++ y.repr)
  | symbolic e, symbolic f =>
      if e = f then symbolic e
      else unknown .divergentSymbolic (reprString e ++ " vs " ++ reprString f)
  | memoryRef a x, memoryRef b y =>
      if a = b then memoryRef a (join x y)
      else unknown .divergentPaths (hex a ++ " vs " ++ hex b)
  | mutatedRegion e v, mutatedRegion f _ =>
      if e = f then mutatedRegion e v
      else unknown .divergentSymbolic (reprString e ++ " vs " ++ reprString f)
  | a, b => unknown .divergentPaths (a.reprText ++ " vs " ++ b.reprText)

def joinAll : List ValueLattice → ValueLattice
  | [] => unknown' .noDefinitionFound
  | v :: vs => vs.foldl join v

/-! ## The information order -/

/-- `Below a b`: everything `a` says, `b` says too. -/
def Below : ValueLattice → ValueLattice → Prop
  | unknown _ _, _ => True
  | concrete x k, concrete y l => x = y ∧ k = l
  | memoryRef a x, memoryRef b y => a = b ∧ Below x y
  | symbolic e, symbolic f => e = f
  | mutatedRegion e _, mutatedRegion f _ => e = f
  | _, _ => False

theorem Below.refl (a : ValueLattice) : Below a a := by
  induction a with
  | memoryRef addr value ih => exact ⟨rfl, ih⟩
  | unknown | concrete | symbolic | mutatedRegion => simp [Below]

theorem Below.trans {a b c : ValueLattice} (left : Below a b) (right : Below b c) : Below a c := by
  induction a generalizing b c with
  | unknown => simp [Below]
  | concrete x k => cases b <;> cases c <;> simp_all [Below]
  | symbolic e => cases b <;> cases c <;> simp_all [Below]
  | mutatedRegion e v => cases b <;> cases c <;> simp_all [Below]
  | memoryRef addr value ih =>
      cases b <;> cases c <;> simp only [Below] at left right ⊢
      exact ⟨left.1.trans right.1, ih left.2 right.2⟩

instance : Preorder ValueLattice where
  le := Below
  le_refl := Below.refl
  le_trans _ _ _ := Below.trans

@[simp] theorem unknown_le (reason : UnknownReason) (detail : String) (b : ValueLattice) :
    unknown reason detail ≤ b := by
  change Below _ _
  simp [Below]

/-- Nothing but the same value lies above a concrete one. -/
theorem concrete_le {x : Datum} {k : ValueKind} {w : ValueLattice} :
    concrete x k ≤ w ↔ w = concrete x k := by
  change Below _ _ ↔ _
  cases w <;> simp [Below, eq_comm]

/-- Nothing but the same symbol lies above a symbol. -/
theorem symbolic_le {e : String} {w : ValueLattice} : symbolic e ≤ w ↔ w = symbolic e := by
  change Below _ _ ↔ _
  cases w <;> simp [Below, eq_comm]

/-- What is below an unknown value is unknown. -/
theorem isKnown_of_le {a b : ValueLattice} (h : a ≤ b) (known : a.isKnown) : b.isKnown := by
  cases b with
  | unknown reason detail =>
      change Below _ _ at h
      cases a <;> simp_all [Below]
  | concrete | memoryRef | symbolic | mutatedRegion => rfl

/-- A join claims no more than its left side. -/
theorem join_le_left (a b : ValueLattice) : join a b ≤ a := by
  induction a generalizing b with
  | memoryRef addr value ih =>
      cases b <;> simp only [join, unknown_le]
      split
      · exact ⟨rfl, ih _⟩
      · exact unknown_le _ _ _
  | unknown | concrete | symbolic | mutatedRegion =>
      cases b <;> simp only [join, unknown_le] <;> (try split) <;> simp

/-- A join claims no more than its right side. -/
theorem join_le_right (a b : ValueLattice) : join a b ≤ b := by
  induction a generalizing b with
  | memoryRef addr value ih =>
      cases b <;> simp only [join, unknown_le, le_refl]
      split
      · rename_i same
        exact ⟨same, ih _⟩
      · exact unknown_le _ _ _
  | unknown => cases b <;> simp [join]
  | concrete x k =>
      cases b <;> simp only [join, unknown_le, le_refl]
      split
      · rename_i same
        rw [same.1, same.2]
      · exact unknown_le _ _ _
  | symbolic e =>
      cases b <;> simp only [join, unknown_le, le_refl]
      split
      · rename_i same
        rw [same]
      · exact unknown_le _ _ _
  | mutatedRegion e v =>
      cases b <;> simp only [join, unknown_le, le_refl]
      split
      · rename_i same
        exact same
      · exact unknown_le _ _ _

/-- A join keeps whatever both sides claim. -/
theorem le_join {a b c : ValueLattice} (left : c ≤ a) (right : c ≤ b) : c ≤ join a b := by
  induction c generalizing a b with
  | unknown => exact unknown_le _ _ _
  | concrete x k =>
      obtain rfl := concrete_le.mp left
      obtain rfl := concrete_le.mp right
      simp [join]
  | symbolic e =>
      obtain rfl := symbolic_le.mp left
      obtain rfl := symbolic_le.mp right
      simp [join]
  | mutatedRegion e v =>
      change Below _ _ at left right
      cases a <;> cases b <;> simp only [Below] at left right
      subst left right
      rw [join, if_pos rfl]
      exact rfl
  | memoryRef addr value ih =>
      change Below _ _ at left right
      cases a <;> cases b <;> simp only [Below] at left right
      obtain ⟨rfl, left⟩ := left
      obtain ⟨rfl, right⟩ := right
      rw [join, if_pos rfl]
      exact ⟨rfl, ih left right⟩

theorem le_join_iff {a b c : ValueLattice} : c ≤ join a b ↔ c ≤ a ∧ c ≤ b :=
  ⟨fun h => ⟨h.trans (join_le_left a b), h.trans (join_le_right a b)⟩, fun h => le_join h.1 h.2⟩

/-- Folding `join` gives the greatest lower bound of all values. -/
theorem le_foldl_join {c : ValueLattice} (vs : List ValueLattice) (v : ValueLattice) :
    c ≤ vs.foldl join v ↔ c ≤ v ∧ ∀ w ∈ vs, c ≤ w := by
  induction vs generalizing v with
  | nil => simp
  | cons w vs ih => simp [ih, le_join_iff, and_assoc]

/-- Being below the join of a non-empty list is being below each element. -/
theorem le_joinAll_iff {c : ValueLattice} {vs : List ValueLattice} (nonempty : vs ≠ []) :
    c ≤ joinAll vs ↔ ∀ v ∈ vs, c ≤ v := by
  cases vs with
  | nil => exact (nonempty rfl).elim
  | cons v vs => simp [joinAll, le_foldl_join]

/-- The join of all claims no more than any of them. -/
theorem joinAll_le {v : ValueLattice} {vs : List ValueLattice} (member : v ∈ vs) :
    joinAll vs ≤ v :=
  (le_joinAll_iff (List.ne_nil_of_mem member)).mp le_rfl v member

/-- The join of a non-empty list is its greatest lower bound. -/
theorem isGLB_joinAll {vs : List ValueLattice} (nonempty : vs ≠ []) :
    IsGLB {v | v ∈ vs} (joinAll vs) :=
  ⟨fun _ member => joinAll_le member, fun _ below => (le_joinAll_iff nonempty).mpr below⟩

/-! ## What a value says

The order does not see why a value is unknown, nor through what a region was written. -/

/-- A value with the reason and detail of `unknown` and the `via` of a region left out, at
any depth. -/
def content : ValueLattice → ValueLattice
  | unknown _ _ => unknown' .noDefinitionFound
  | concrete x k => concrete x k
  | memoryRef addr value => memoryRef addr value.content
  | symbolic e => symbolic e
  | mutatedRegion e _ => mutatedRegion e ""

/-- A value's content claims no more than the value. -/
theorem content_le (a : ValueLattice) : a.content ≤ a := by
  induction a with
  | memoryRef addr value ih => exact ⟨rfl, ih⟩
  | unknown => exact unknown_le _ _ _
  | concrete | symbolic => exact le_refl _
  | mutatedRegion e v => exact (rfl : e = e)

/-- A value claims no more than its content. -/
theorem le_content (a : ValueLattice) : a ≤ a.content := by
  induction a with
  | memoryRef addr value ih => exact ⟨rfl, ih⟩
  | unknown => exact unknown_le _ _ _
  | concrete | symbolic => exact le_refl _
  | mutatedRegion e v => exact (rfl : e = e)

/-- Values that claim the same have the same content. -/
theorem content_eq_of_le {a b : ValueLattice} (left : a ≤ b) (right : b ≤ a) :
    a.content = b.content := by
  induction a generalizing b with
  | memoryRef addr value ih =>
      change Below _ _ at left right
      cases b <;> simp only [Below] at left right
      rw [content, content, left.1, ih left.2 right.2]
  | unknown =>
      change Below _ _ at right
      cases b <;> simp only [Below] at right
      rfl
  | concrete x k => rw [concrete_le.mp left]
  | symbolic e => rw [symbolic_le.mp left]
  | mutatedRegion e v =>
      change Below _ _ at left right
      cases b <;> simp only [Below] at left right
      rw [content, content, left]

/-- Two values say the same when each is below the other. -/
theorem content_eq_iff {a b : ValueLattice} : a.content = b.content ↔ a ≤ b ∧ b ≤ a := by
  refine ⟨fun same => ⟨?_, ?_⟩, fun h => content_eq_of_le h.1 h.2⟩
  · exact (le_content a).trans (same ▸ content_le b)
  · exact (le_content b).trans (same ▸ content_le a)

/-- The join of a non-empty list is its greatest lower bound, so up to what a value leaves
unsaid it depends on the members of the list only. -/
theorem joinAll_greatest {vs : List ValueLattice} (nonempty : vs ≠ []) :
    (∀ v ∈ vs, joinAll vs ≤ v) ∧ (∀ c, (∀ v ∈ vs, c ≤ v) → c ≤ joinAll vs) ∧
      ∀ ws : List ValueLattice, (∀ v, v ∈ ws ↔ v ∈ vs) →
        (joinAll ws).content = (joinAll vs).content := by
  have glb := isGLB_joinAll nonempty
  refine ⟨fun v member => glb.1 member, fun c below => glb.2 below, fun ws same => ?_⟩
  have nonempty' : ws ≠ [] := by
    rintro rfl
    rcases List.exists_mem_of_ne_nil vs nonempty with ⟨v, member⟩
    simpa using (same v).mpr member
  have glb' : IsGLB {v | v ∈ vs} (joinAll ws) := by
    simpa [same] using isGLB_joinAll nonempty'
  exact content_eq_iff.mpr ⟨glb.2 glb'.1, glb'.2 glb.1⟩

namespace JoinAll

/-- Three loads of one cell. -/
def loads : List ValueLattice :=
  [memoryRef 0x404000 (concrete (.int 5) .int), memoryRef 0x404000 (mutatedRegion "arg0" "ecx"),
    memoryRef 0x404000 (concrete (.int 5) .int)]

theorem loads_greatest :
    (∀ v ∈ loads, joinAll loads ≤ v) ∧ (∀ c, (∀ v ∈ loads, c ≤ v) → c ≤ joinAll loads) ∧
      ∀ ws : List ValueLattice, (∀ v, v ∈ ws ↔ v ∈ loads) →
        (joinAll ws).content = (joinAll loads).content :=
  joinAll_greatest (by decide)

end JoinAll

/-! ## Scalar values

The forward engine is seeded with a symbol and its locators only build integers
and symbols, so its states hold no memory reference or region. On such values the
order is flat: a known value is below itself only. -/

/-- An unknown value, a concrete one or a symbol. -/
def Scalar : ValueLattice → Prop
  | memoryRef _ _ => False
  | mutatedRegion _ _ => False
  | _ => True

@[simp] theorem scalar_unknown (reason : UnknownReason) (detail : String) :
    (unknown reason detail).Scalar := trivial

@[simp] theorem scalar_concrete (x : Datum) (k : ValueKind) : (concrete x k).Scalar := trivial

@[simp] theorem scalar_symbolic (e : String) : (symbolic e).Scalar := trivial

/-- Nothing but the same value lies above a known scalar one. -/
theorem Scalar.eq_of_le {a b : ValueLattice} (scalar : a.Scalar) (known : a.isKnown)
    (h : a ≤ b) : b = a := by
  cases a with
  | unknown => cases known
  | concrete x k => exact concrete_le.mp h
  | symbolic e => exact symbolic_le.mp h
  | memoryRef => exact scalar.elim
  | mutatedRegion => exact scalar.elim

/-- Equal, up to the reason and detail of `unknown`. -/
def Alike (a b : ValueLattice) : Prop := a = b ∨ a.isKnown = false ∧ b.isKnown = false

/-- An unknown value claims nothing. -/
theorem le_of_unknown {a : ValueLattice} (unknown : a.isKnown = false) (b : ValueLattice) :
    a ≤ b := by
  rcases isKnown_eq_false unknown with ⟨reason, detail, rfl⟩
  exact unknown_le reason detail b

theorem Alike.le {a b : ValueLattice} (alike : Alike a b) : a ≤ b := by
  rcases alike with rfl | ⟨unknown, _⟩
  · exact le_refl a
  · exact le_of_unknown unknown b

theorem Alike.symm {a b : ValueLattice} (alike : Alike a b) : Alike b a := by
  rcases alike with rfl | ⟨left, right⟩
  · exact Or.inl rfl
  · exact Or.inr ⟨right, left⟩

theorem Alike.trans {a b c : ValueLattice} (left : Alike a b) (right : Alike b c) : Alike a c := by
  rcases left with rfl | ⟨unknown, unknown'⟩
  · exact right
  · rcases right with rfl | ⟨_, unknown''⟩
    · exact Or.inr ⟨unknown, unknown'⟩
    · exact Or.inr ⟨unknown, unknown''⟩

/-- Scalar values that claim the same are alike. -/
theorem Scalar.alike {a b : ValueLattice} (scalar : a.Scalar) (left : a ≤ b) (right : b ≤ a) :
    Alike a b := by
  cases known : a.isKnown with
  | true => exact Or.inl (scalar.eq_of_le known left).symm
  | false =>
      cases known' : b.isKnown with
      | true => exact absurd (isKnown_of_le right known') (by simp [known])
      | false => exact Or.inr ⟨known, known'⟩

/-- Joining keeps values scalar. -/
theorem Scalar.join {a b : ValueLattice} (left : a.Scalar) (right : b.Scalar) :
    (a.join b).Scalar := by
  cases a <;> cases b <;> simp only [Scalar] at left right <;> simp only [ValueLattice.join] <;>
    (try split) <;> trivial

theorem scalar_foldl_join {vs : List ValueLattice} {v : ValueLattice} (head : v.Scalar)
    (tail : ∀ w ∈ vs, w.Scalar) : (vs.foldl ValueLattice.join v).Scalar := by
  induction vs generalizing v with
  | nil => exact head
  | cons w vs ih =>
      exact ih (head.join (tail w (by simp))) fun u member => tail u (by simp [member])

/-- So does joining all of them. -/
theorem scalar_joinAll {vs : List ValueLattice} (each : ∀ v ∈ vs, v.Scalar) :
    (joinAll vs).Scalar := by
  cases vs with
  | nil => trivial
  | cons v vs =>
      exact scalar_foldl_join (each v (by simp)) fun w member => each w (by simp [member])

end ValueLattice

end IDAnalysister
