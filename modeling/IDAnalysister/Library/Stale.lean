import IDAnalysister.Library.Cache
import Mathlib.Data.Set.Basic

/-!
# Memoised functions that change

When a function changes at some keys, a table of its answers is wrong at most there. The stale
keys are those at which it changed since they were last dropped: every other entry stays an
answer of the function as it is now, whatever is fetched in between, and dropping a key makes it
no longer stale.
-/

namespace Memo

variable {κ ν : Type}

/-- Every entry of a key that is not stale is an answer of `f`. -/
def FaithfulOff (stale : Set κ) (f : κ → ν) (entries : List (κ × ν)) : Prop :=
  ∀ e ∈ entries, e.1 ∉ stale → e.2 = f e.1

variable {stale : Set κ} {f g : κ → ν} {entries : List (κ × ν)}

theorem faithfulOff_nil (stale : Set κ) (f : κ → ν) : FaithfulOff stale f [] := by
  intro e member
  cases member

theorem Faithful.off (faithful : Faithful f entries) (stale : Set κ) :
    FaithfulOff stale f entries := fun e member _ => faithful e member

namespace FaithfulOff

theorem faithful (off : FaithfulOff stale f entries) (none : stale = ∅) :
    Faithful f entries := by
  intro e member
  refine off e member ?_
  rw [none]
  exact Set.notMem_empty e.1

/-- The keys at which the function changes become stale. -/
theorem changed (off : FaithfulOff stale f entries) {stale' : Set κ} (more : stale ⊆ stale')
    (differ : ∀ k, g k ≠ f k → k ∈ stale') : FaithfulOff stale' g entries := by
  intro e member fresh
  have unchanged : g e.1 = f e.1 := not_not.mp fun changed => fresh (differ e.1 changed)
  rw [unchanged]
  exact off e member fun old => fresh (more old)

end FaithfulOff

variable [DecidableEq κ]

/-- A fetch keeps every entry that is not stale right, and answers right where the key is not. -/
theorem Table.fetch_off {t : Table κ ν} (off : FaithfulOff stale f t) (k : κ) :
    FaithfulOff stale f (t.fetch f k).2 ∧ (k ∉ stale → (t.fetch f k).1 = f k) := by
  unfold fetch
  split
  · rename_i v found
    exact ⟨off, off _ (Memo.mem_of_lookup found)⟩
  · refine ⟨fun e member fresh => ?_, fun _ => rfl⟩
    rcases List.mem_cons.mp member with rfl | old
    · rfl
    · exact off e old fresh

namespace LruCache

variable {c : LruCache κ ν} {k : κ}

theorem mem_promoted {v : ν} {e : κ × ν} (member : e ∈ promoted entries k v) :
    e ∈ entries ∨ e = (k, v) := by
  rcases List.mem_append.mp member with old | new
  · exact Or.inl (List.mem_filter.mp old).1
  · exact Or.inr (List.mem_singleton.mp new)

theorem mem_of_lookup {v : ν} {c' : LruCache κ ν} (hit : c.lookup k = some (v, c')) :
    (k, v) ∈ c.entries ∧ ∀ e ∈ c'.entries, e ∈ c.entries := by
  unfold lookup at hit
  split at hit
  · cases hit
  · rename_i w found
    cases hit
    have held := Memo.mem_of_lookup found
    refine ⟨held, fun e member => ?_⟩
    rcases mem_promoted member with old | rfl
    · exact old
    · exact held

theorem mem_of_store {v : ν} {e : κ × ν} (member : e ∈ (c.store k v).entries) :
    e ∈ c.entries ∨ e = (k, v) := by
  unfold store at member
  split at member
  · exact mem_promoted member
  · exact mem_promoted (List.mem_of_mem_tail member)

theorem fetch_off (off : FaithfulOff stale f c.entries) (k : κ) :
    FaithfulOff stale f (c.fetch f k).2.entries ∧ (k ∉ stale → (c.fetch f k).1 = f k) := by
  unfold fetch
  split
  · rename_i hit found
    rcases mem_of_lookup found with ⟨held, kept⟩
    exact ⟨fun e member => off e (kept e member), fun fresh => off _ held fresh⟩
  · refine ⟨fun e member fresh => ?_, fun _ => rfl⟩
    rcases mem_of_store member with old | rfl
    · exact off e old fresh
    · rfl

/-- A key that is dropped is not stale any more. -/
theorem pop_off (off : FaithfulOff stale f c.entries) (k : κ) :
    FaithfulOff (stale \ {k}) f (c.pop k).entries := by
  intro e member fresh
  rcases List.mem_filter.mp member with ⟨held, other⟩
  have different : e.1 ≠ k := by simpa using other
  exact off e held fun old => fresh ⟨old, different⟩

end LruCache

end Memo
