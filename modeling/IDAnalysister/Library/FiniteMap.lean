import Mathlib.Data.Finmap

/-!
# Finite maps given by a key set and a function

The finite map with a given key set whose values are computed key by key, and the
lemma that reads it back. `Agree` compares two maps entry by entry.
-/

namespace Finmap

variable {κ β : Type} [DecidableEq κ]

/-- The finite map with key set `keys` that sends `k` to `f k`. -/
def tabulate (keys : Finset κ) (f : κ → β) : Finmap (fun _ : κ => β) where
  entries := keys.val.map fun k => ⟨k, f k⟩
  nodupKeys := by
    rw [← Multiset.nodup_keys, Multiset.keys, Multiset.map_map]
    simpa using keys.nodup

omit [DecidableEq κ] in
@[simp] theorem keys_tabulate (keys : Finset κ) (f : κ → β) : (tabulate keys f).keys = keys := by
  apply Finset.val_injective
  change Multiset.map _ (Multiset.map _ _) = _
  simp

theorem lookup_tabulate (keys : Finset κ) (f : κ → β) (k : κ) :
    (tabulate keys f).lookup k = if k ∈ keys then some (f k) else none := by
  split
  · rename_i member
    apply Finmap.lookup_eq_some_iff.mpr
    exact Multiset.mem_map.mpr ⟨k, member, rfl⟩
  · rename_i absent
    rw [Finmap.lookup_eq_none, ← Finmap.mem_keys, keys_tabulate]
    exact absent

theorem keys_insert (k : κ) (v : β) (s : Finmap (fun _ : κ => β)) :
    (s.insert k v).keys = Insert.insert k s.keys := by
  ext a
  simp [Finmap.mem_keys]

/-- Every entry of the first map is an entry of the second. Counting the entries that are
not keeps the test computable by evaluation. -/
def Agree [DecidableEq β] (s t : Finmap (fun _ : κ => β)) : Prop :=
  s.entries.countP (fun e => t.lookup e.1 ≠ some e.2) = 0

instance [DecidableEq β] (s t : Finmap (fun _ : κ => β)) : Decidable (Agree s t) :=
  inferInstanceAs (Decidable (_ = 0))

theorem lookup_of_agree [DecidableEq β] {s t : Finmap (fun _ : κ => β)} (agree : Agree s t)
    {k : κ} {v : β} (found : s.lookup k = some v) : t.lookup k = some v := by
  have entry := Finmap.lookup_eq_some_iff.mp found
  have same := Multiset.countP_eq_zero.mp agree ⟨k, v⟩ entry
  simpa using same

theorem eq_iff_agree [DecidableEq β] {s t : Finmap (fun _ : κ => β)} :
    s = t ↔ Agree s t ∧ Agree t s := by
  constructor
  · intro same
    subst same
    have self : Agree s s := by
      apply Multiset.countP_eq_zero.mpr
      intro e entry
      simpa using Finmap.lookup_eq_some_iff.mpr entry
    exact ⟨self, self⟩
  · intro both
    apply Finmap.ext_lookup
    intro k
    apply Option.ext
    intro v
    exact ⟨lookup_of_agree both.1, lookup_of_agree both.2⟩

end Finmap
