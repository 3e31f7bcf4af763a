import Mathlib.Data.List.Dedup
import Mathlib.Data.List.DropRight

/-!
# Memoised functions

Two tables that remember answers of a function: an unbounded dictionary and a bounded
one that drops its least recently used entry. A table is `Faithful` to `f` when every
entry it holds is an answer of `f`; a fetch from a faithful table answers what `f`
answers and leaves a faithful table. The bounded table holds the keys fetched last:
`keys_fetchAll` reads them off the list of fetches.
-/

namespace Memo

variable {κ ν : Type} [DecidableEq κ]

/-- Every remembered entry is an answer of `f`. -/
def Faithful (f : κ → ν) (entries : List (κ × ν)) : Prop :=
  ∀ e ∈ entries, e.2 = f e.1

omit [DecidableEq κ] in
@[simp] theorem faithful_nil (f : κ → ν) : Faithful f [] := by
  intro e member
  cases member

theorem mem_of_lookup {entries : List (κ × ν)} {k : κ} {v : ν}
    (found : entries.lookup k = some v) : (k, v) ∈ entries := by
  rcases List.lookup_eq_some_iff.mp found with ⟨before, after, split, -⟩
  rw [split]
  exact List.mem_append_right before List.mem_cons_self

theorem Faithful.lookup {f : κ → ν} {entries : List (κ × ν)} (faithful : Faithful f entries)
    {k : κ} {v : ν} (found : entries.lookup k = some v) : v = f k :=
  faithful (k, v) (mem_of_lookup found)

/-! ## An unbounded table -/

/-- A dictionary, newest entry first. -/
abbrev Table (κ ν : Type) := List (κ × ν)

namespace Table

/-- The remembered answer, or `f`'s, which is then remembered. -/
def fetch (f : κ → ν) (t : Table κ ν) (k : κ) : ν × Table κ ν :=
  match t.lookup k with
  | some v => (v, t)
  | none => (f k, (k, f k) :: t)

/-- A faithful table answers like the function. -/
theorem fetch_fst {f : κ → ν} {t : Table κ ν} (faithful : Faithful f t) (k : κ) :
    (t.fetch f k).1 = f k := by
  unfold fetch
  split
  · rename_i v found
    exact faithful.lookup found
  · rfl

/-- Fetching keeps a table faithful. -/
theorem fetch_faithful {f : κ → ν} {t : Table κ ν} (faithful : Faithful f t) (k : κ) :
    Faithful f (t.fetch f k).2 := by
  unfold fetch
  split
  · exact faithful
  · intro e member
    rcases List.mem_cons.mp member with same | old
    · rw [same]
    · exact faithful e old

end Table

/-! ## A bounded table -/

/-- An ordered dictionary of at most `capacity` entries, least recently used first. -/
structure LruCache (κ ν : Type) [DecidableEq κ] where
  capacity : Nat
  entries : List (κ × ν)
  nodup : (entries.map (·.1)).Nodup
  bounded : entries.length ≤ capacity

namespace LruCache

def empty (capacity : Nat) : LruCache κ ν := ⟨capacity, [], by simp, by simp⟩

/-- The entries with `k` set to `v` and moved to the end. -/
def promoted (entries : List (κ × ν)) (k : κ) (v : ν) : List (κ × ν) :=
  entries.filter (·.1 ≠ k) ++ [(k, v)]

/-- Promoting a key keeps the keys distinct. -/
theorem promoted_nodup {entries : List (κ × ν)} (nodup : (entries.map (·.1)).Nodup) (k : κ)
    (v : ν) : ((promoted entries k v).map (·.1)).Nodup := by
  rw [promoted, List.map_append]
  refine List.nodup_append.mpr ⟨?_, by simp, ?_⟩
  · exact nodup.sublist (List.filter_sublist.map _)
  · intro a old b new same
    rcases List.mem_map.mp old with ⟨e, member, rfl⟩
    have other : e.1 ≠ k := by simpa using (List.mem_filter.mp member).2
    exact other (same.trans (by simpa using new))

/-- Promoting a present key does not make the list longer. -/
theorem promoted_length_le {entries : List (κ × ν)} {k : κ} {v v' : ν}
    (found : entries.lookup k = some v') : (promoted entries k v).length ≤ entries.length := by
  have shorter : (entries.filter (·.1 ≠ k)).length < entries.length :=
    List.length_filter_lt_length_iff_exists.mpr ⟨(k, v'), mem_of_lookup found, by simp⟩
  rw [promoted, List.length_append]
  exact shorter

/-- Promoting a right entry keeps the list faithful. -/
theorem promoted_faithful {f : κ → ν} {entries : List (κ × ν)} (faithful : Faithful f entries)
    {k : κ} {v : ν} (answer : v = f k) : Faithful f (promoted entries k v) := by
  intro e member
  rcases List.mem_append.mp member with old | new
  · exact faithful e (List.mem_filter.mp old).1
  · have same : e = (k, v) := by simpa using new
    rw [same]
    exact answer

/-- A hit moves the entry to the end. -/
def lookup (c : LruCache κ ν) (k : κ) : Option (ν × LruCache κ ν) :=
  match found : c.entries.lookup k with
  | none => none
  | some v =>
      some (v,
        { capacity := c.capacity
          entries := promoted c.entries k v
          nodup := promoted_nodup c.nodup k v
          bounded := Nat.le_trans (promoted_length_le found) c.bounded })

/-- Add an entry at the end; the oldest one goes when there are too many. -/
def store (c : LruCache κ ν) (k : κ) (v : ν) : LruCache κ ν :=
  if fits : (promoted c.entries k v).length ≤ c.capacity then
    ⟨c.capacity, promoted c.entries k v, promoted_nodup c.nodup k v, fits⟩
  else
    { capacity := c.capacity
      entries := (promoted c.entries k v).tail
      nodup := (promoted_nodup c.nodup k v).sublist ((List.tail_sublist _).map _)
      bounded := by
        have fewer : (c.entries.filter (·.1 ≠ k)).length ≤ c.entries.length :=
          List.length_filter_le _ _
        have before := c.bounded
        simp only [promoted, List.length_tail, List.length_append, List.length_singleton]
        omega }

def fetch (f : κ → ν) (c : LruCache κ ν) (k : κ) : ν × LruCache κ ν :=
  match c.lookup k with
  | some hit => hit
  | none => (f k, c.store k (f k))

def clear (c : LruCache κ ν) : LruCache κ ν := empty c.capacity

/-- Drop the entry of one key. -/
def pop (c : LruCache κ ν) (k : κ) : LruCache κ ν where
  capacity := c.capacity
  entries := c.entries.filter (·.1 ≠ k)
  nodup := c.nodup.sublist (List.filter_sublist.map _)
  bounded := Nat.le_trans (List.length_filter_le _ _) c.bounded

/-- Storing a right entry keeps the cache faithful, whatever is evicted. -/
theorem store_faithful {f : κ → ν} {c : LruCache κ ν} (faithful : Faithful f c.entries) (k : κ) :
    Faithful f (c.store k (f k)).entries := by
  have whole := promoted_faithful faithful (k := k) rfl
  unfold store
  split
  · exact whole
  · intro e member
    exact whole e (List.mem_of_mem_tail member)

/-- A hit in a faithful cache is right. -/
theorem lookup_faithful {f : κ → ν} {c c' : LruCache κ ν} (faithful : Faithful f c.entries) {k : κ}
    {v : ν} (hit : c.lookup k = some (v, c')) : v = f k ∧ Faithful f c'.entries := by
  unfold lookup at hit
  split at hit
  · cases hit
  · rename_i w found
    have answer := faithful.lookup found
    cases hit
    exact ⟨answer, promoted_faithful faithful answer⟩

/-- A fetch from a faithful cache answers what `f` answers and keeps the cache faithful. -/
theorem fetch_spec {f : κ → ν} {c : LruCache κ ν} (faithful : Faithful f c.entries) (k : κ) :
    (c.fetch f k).1 = f k ∧ Faithful f (c.fetch f k).2.entries := by
  unfold fetch
  split
  · rename_i hit found
    exact lookup_faithful faithful found
  · exact ⟨rfl, store_faithful faithful k⟩

/-- Dropping a key keeps the cache faithful. -/
theorem pop_faithful {f : κ → ν} {c : LruCache κ ν} (faithful : Faithful f c.entries) (k : κ) :
    Faithful f (c.pop k).entries :=
  fun e member => faithful e (List.mem_filter.mp member).1

/-! ## The keys of a bounded table

A fetch moves its key to the end and drops what no longer fits in front, so the keys held
are a suffix of the distinct keys in the order of their last fetch. -/

/-- The keys in the order of their last use. -/
def keys (c : LruCache κ ν) : List κ := c.entries.map (·.1)

/-- `k` moved, or added, to the end. -/
def touched (ks : List κ) (k : κ) : List κ := ks.filter (· ≠ k) ++ [k]

/-- Promoting touches the key. -/
theorem map_promoted (entries : List (κ × ν)) (k : κ) (v : ν) :
    (promoted entries k v).map (·.1) = touched (entries.map (·.1)) k := by
  simp [promoted, touched, List.filter_map, Function.comp_def]

omit [DecidableEq κ] in
theorem rtake_of_length_le {ks : List κ} {n : Nat} (fits : ks.length ≤ n) : ks.rtake n = ks := by
  rw [List.rtake, Nat.sub_eq_zero_of_le fits, List.drop_zero]

omit [DecidableEq κ] in
theorem rtake_append_of_le_length {n : Nat} {ls ks : List κ} (enough : n ≤ ks.length) :
    (ls ++ ks).rtake n = ks.rtake n := by
  have skipped : ls.length + ks.length - n = ls.length + (ks.length - n) := by omega
  rw [List.rtake, List.rtake, List.length_append, skipped, List.drop_append]
  simp

/-- Without duplicates at most one entry of a list is `k`. -/
theorem length_le_filter {ks : List κ} (nodup : ks.Nodup) (k : κ) :
    ks.length ≤ (ks.filter (· ≠ k)).length + 1 := by
  have erased : (ks.erase k).length = (ks.filter (· ≠ k)).length := by
    rw [nodup.erase_eq_filter]
    congr 1
    exact List.filter_congr fun l _ => by simp [bne, beq_eq_decide]
  have removed := List.length_erase (a := k) (l := ks)
  split at removed <;> omega

/-- What fits after a use is decided by what was held before it. -/
theorem rtake_touched {ks : List κ} (nodup : ks.Nodup) (n : Nat) (k : κ) :
    (touched (ks.rtake n) k).rtake n = (touched ks k).rtake n := by
  cases n with
  | zero => simp
  | succ n =>
      rw [touched, touched, List.rtake_concat_succ, List.rtake_concat_succ]
      congr 1
      have split : ks = ks.take (ks.length - (n + 1)) ++ ks.rtake (n + 1) :=
        (List.take_append_drop _ _).symm
      by_cases long : n + 1 ≤ ks.length
      · have held : (ks.rtake (n + 1)).length = n + 1 := by
          rw [List.rtake, List.length_drop]
          omega
        have kept := length_le_filter (nodup.sublist (List.drop_sublist _ _) :
          (ks.rtake (n + 1)).Nodup) k
        conv_rhs => rw [split, List.filter_append]
        exact (rtake_append_of_le_length (by omega)).symm
      · have whole : ks.rtake (n + 1) = ks := rtake_of_length_le (by omega)
        rw [whole]

/-- The distinct keys of a longer history are those of the shorter one, touched. -/
theorem dedup_concat (ks : List κ) (k : κ) : (ks ++ [k]).dedup = touched ks.dedup k := by
  induction ks with
  | nil => simp [touched]
  | cons l ks ih =>
      rw [List.cons_append, List.dedup_cons, List.dedup_cons, ih]
      by_cases again : l ∈ ks
      · simp [again]
      · rcases eq_or_ne l k with rfl | other
        · simp [again, touched]
        · simp [again, other, touched]

/-- A hit keeps the capacity and touches the key. -/
theorem lookup_capacity {c c' : LruCache κ ν} {k : κ} {v : ν} (hit : c.lookup k = some (v, c')) :
    c'.capacity = c.capacity ∧ c'.keys = touched c.keys k := by
  unfold lookup at hit
  split at hit
  · cases hit
  · cases hit
    exact ⟨rfl, map_promoted _ _ _⟩

theorem store_capacity (c : LruCache κ ν) (k : κ) (v : ν) :
    (c.store k v).capacity = c.capacity := by
  unfold store
  split <;> rfl

/-- A store touches the key and keeps as many of the latest keys as fit. -/
theorem store_keys (c : LruCache κ ν) (k : κ) (v : ν) :
    (c.store k v).keys = (touched c.keys k).rtake c.capacity := by
  have keys := map_promoted c.entries k v
  have length := congrArg List.length keys
  rw [List.length_map] at length
  unfold store
  split
  · rename_i fits
    exact keys.trans (rtake_of_length_le (length ▸ fits)).symm
  · rename_i full
    have one : (promoted c.entries k v).length - c.capacity = 1 := by
      have fewer : (c.entries.filter (·.1 ≠ k)).length ≤ c.entries.length :=
        List.length_filter_le _ _
      have before := c.bounded
      rw [promoted, List.length_append, List.length_singleton] at full ⊢
      omega
    have last := length ▸ one
    change (promoted c.entries k v).tail.map (·.1) = (touched c.keys k).rtake c.capacity
    rw [List.map_tail, keys, List.rtake]
    change (touched c.keys k).length - c.capacity = 1 at last
    rw [last, List.drop_one]
    rfl

theorem fetch_capacity (f : κ → ν) (c : LruCache κ ν) (k : κ) :
    (c.fetch f k).2.capacity = c.capacity := by
  unfold fetch
  split
  · rename_i hit found
    exact (lookup_capacity found).1
  · exact store_capacity c k (f k)

/-- So does a fetch, hit or miss. -/
theorem fetch_keys (f : κ → ν) (c : LruCache κ ν) (k : κ) :
    (c.fetch f k).2.keys = (touched c.keys k).rtake c.capacity := by
  unfold fetch
  split
  · rename_i hit found
    have moved := lookup_capacity found
    have fits : hit.2.keys.length ≤ c.capacity := by
      rw [keys, List.length_map, ← moved.1]
      exact hit.2.bounded
    rw [← moved.2, rtake_of_length_le fits]
  · exact store_keys c k (f k)

/-- Fetch a list of keys. -/
def fetchAll (f : κ → ν) (c : LruCache κ ν) (ks : List κ) : LruCache κ ν :=
  ks.foldl (fun c k => (c.fetch f k).2) c

/-- Fetching one more key comes last. -/
theorem fetchAll_concat (f : κ → ν) (c : LruCache κ ν) (ks : List κ) (k : κ) :
    c.fetchAll f (ks ++ [k]) = ((c.fetchAll f ks).fetch f k).2 := by
  rw [fetchAll, List.foldl_concat]
  rfl

theorem fetchAll_capacity (f : κ → ν) (c : LruCache κ ν) (ks : List κ) :
    (c.fetchAll f ks).capacity = c.capacity := by
  induction ks using List.reverseRecOn with
  | nil => rfl
  | append_singleton ks k ih => rw [fetchAll_concat, fetch_capacity, ih]

/-- The keys held after a list of fetches are the last distinct ones of it. -/
theorem keys_fetchAll (f : κ → ν) (capacity : Nat) (ks : List κ) :
    ((empty capacity : LruCache κ ν).fetchAll f ks).keys = ks.dedup.rtake capacity := by
  induction ks using List.reverseRecOn with
  | nil => simp [fetchAll, empty, keys]
  | append_singleton ks k ih =>
      rw [fetchAll_concat, fetch_keys, fetchAll_capacity, ih, dedup_concat]
      exact rtake_touched ks.nodup_dedup capacity k

end LruCache

end Memo
