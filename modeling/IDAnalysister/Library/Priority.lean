import Mathlib.Data.List.MinMax
import Mathlib.Data.List.Sort

/-!
# Tables sorted by priority

A table of entries with priorities, sorted again after every registration. The sort is
stable, so a search that takes the first acceptable entry takes, of all entries ever
registered, the earliest one of highest priority: `find?_table`.
-/

namespace Priority

variable {α β : Type} [LinearOrder β]

/-- Sort by descending priority; entries of one priority stay in their order. -/
abbrev sorted (l : List (β × α)) : List (β × α) := l.insertionSort fun a b => b.1 ≤ a.1

/-- Register the entries one by one, sorting after each. -/
def table (l : List (β × α)) : List (β × α) := l.foldl (fun t e => sorted (t ++ [e])) []

theorem table_concat (l : List (β × α)) (e : β × α) :
    table (l ++ [e]) = sorted (table l ++ [e]) := by
  rw [table, List.foldl_concat]
  rfl

/-! ## The earliest of highest priority -/

section Argmax

variable {γ : Type} {f : γ → β}

/-- The later of two candidates is taken when it is strictly better. -/
theorem argmax_cons_of_lt {a c : γ} {l : List γ} (best : l.argmax f = some c) (better : f a < f c) :
    (a :: l).argmax f = some c := by
  rw [List.argmax_cons, best]
  exact if_pos better

theorem argmax_cons_of_le {a : γ} {l : List γ} (least : ∀ c ∈ l, f c ≤ f a) :
    (a :: l).argmax f = some a := by
  rw [List.argmax_cons]
  cases best : l.argmax f with
  | none => rfl
  | some c => exact if_neg (not_lt.mpr (least c (List.argmax_mem best)))

theorem argmax_eq_some_iff_split {m : γ} {l : List γ} :
    l.argmax f = some m ↔ ∃ before after, l = before ++ m :: after ∧
      (∀ a ∈ before, f a < f m) ∧ ∀ a ∈ after, f a ≤ f m := by
  refine ⟨fun best => ?_, ?_⟩
  · induction l generalizing m with
    | nil => cases best
    | cons a l ih =>
        cases rest : l.argmax f with
        | none =>
            obtain rfl := List.argmax_eq_none.mp rest
            obtain rfl : a = m := by simpa using best
            exact ⟨[], [], rfl, by simp, by simp⟩
        | some c =>
            rw [List.argmax_cons, rest] at best
            by_cases better : f a < f c
            · obtain rfl : c = m := by simpa [better] using best
              rcases ih rest with ⟨before, after, rfl, earlier, later⟩
              exact ⟨a :: before, after, rfl, List.forall_mem_cons.mpr ⟨better, earlier⟩, later⟩
            · obtain rfl : a = m := by simpa [better] using best
              refine ⟨[], l, rfl, by simp, fun d member => ?_⟩
              exact (List.le_of_mem_argmax member rest).trans (not_lt.mp better)
  · rintro ⟨before, after, rfl, earlier, later⟩
    induction before with
    | nil => exact argmax_cons_of_le later
    | cons a before ih =>
        rcases List.forall_mem_cons.mp earlier with ⟨first, earlier⟩
        exact argmax_cons_of_lt (ih earlier) first

/-- Of the acceptable members the best is the first among those of highest priority. -/
theorem argmax_filter_eq_some_iff {p : γ → Bool} {m : γ} {l : List γ} :
    (l.filter p).argmax f = some m ↔ ∃ before after, l = before ++ m :: after ∧ p m ∧
      (∀ a ∈ before, p a → f a < f m) ∧ ∀ a ∈ after, p a → f a ≤ f m := by
  rw [argmax_eq_some_iff_split]
  refine ⟨?_, ?_⟩
  · rintro ⟨before', after', split, earlier, later⟩
    rcases List.filter_eq_append_iff.mp split with ⟨before, rest, rfl, rfl, rest_eq⟩
    rcases List.filter_eq_cons_iff.mp rest_eq with ⟨skipped, after, rfl, rejected, accepted, rfl⟩
    refine ⟨before ++ skipped, after, by simp, accepted, fun a member ok => ?_,
      fun a member ok => ?_⟩
    · rcases List.mem_append.mp member with old | skip
      · exact earlier a (List.mem_filter.mpr ⟨old, ok⟩)
      · exact absurd ok (rejected a skip)
    · exact later a (List.mem_filter.mpr ⟨member, ok⟩)
  · rintro ⟨before, after, rfl, accepted, earlier, later⟩
    refine ⟨before.filter p, after.filter p, by simp [accepted], fun a member => ?_,
      fun a member => ?_⟩
    · exact earlier a (List.mem_filter.mp member).1 (List.mem_filter.mp member).2
    · exact later a (List.mem_filter.mp member).1 (List.mem_filter.mp member).2

end Argmax

/-- In a sorted table the first acceptable entry is the best one. -/
theorem find?_eq_argmax {t : List (β × α)} (sorted : t.Pairwise fun a b => b.1 ≤ a.1)
    (p : β × α → Bool) : t.find? p = (t.filter p).argmax (·.1) := by
  induction t with
  | nil => rfl
  | cons e t ih =>
      rcases List.pairwise_cons.mp sorted with ⟨first, rest⟩
      cases accepted : p e with
      | true =>
          rw [List.find?_cons_of_pos accepted, List.filter_cons_of_pos accepted]
          exact (argmax_cons_of_le fun c member => first c (List.mem_filter.mp member).1).symm
      | false =>
          rw [List.find?_cons_of_neg (by simp [accepted]),
            List.filter_cons_of_neg (by simp [accepted]), ih rest]

/-- An insertion passes entries of higher priority only, so the best entry stays. -/
theorem argmax_orderedInsert (p : β × α → Bool) (e : β × α) (l : List (β × α)) :
    ((l.orderedInsert (fun a b => b.1 ≤ a.1) e).filter p).argmax (·.1) =
      ((e :: l).filter p).argmax (·.1) := by
  induction l with
  | nil => rfl
  | cons d l ih =>
      rw [List.orderedInsert_cons]
      split
      · rfl
      · rename_i higher
        have lt : e.1 < d.1 := not_le.mp higher
        cases accepted : p e <;> cases accepted' : p d <;>
          simp only [List.filter_cons, accepted, accepted', if_true, Bool.false_eq_true, if_false]
            at ih ⊢
        · exact ih
        · rw [List.argmax_cons, List.argmax_cons, ih]
        · exact ih
        · rw [List.argmax_cons, ih, List.argmax_cons, List.argmax_cons, List.argmax_cons]
          cases best : (l.filter p).argmax (·.1) with
          | none => simp [lt, lt.not_gt]
          | some c =>
              dsimp only
              split_ifs <;> grind

theorem argmax_sorted (p : β × α → Bool) (l : List (β × α)) :
    ((sorted l).filter p).argmax (·.1) = (l.filter p).argmax (·.1) := by
  induction l with
  | nil => rfl
  | cons e l ih =>
      rw [sorted, List.insertionSort_cons, argmax_orderedInsert]
      cases accepted : p e <;> simp [accepted, List.argmax_cons, ih]

theorem argmax_table (p : β × α → Bool) (l : List (β × α)) :
    ((table l).filter p).argmax (·.1) = (l.filter p).argmax (·.1) := by
  induction l using List.reverseRecOn with
  | nil => rfl
  | append_singleton l e ih =>
      rw [table_concat, argmax_sorted, List.filter_append, List.filter_append]
      cases accepted : p e <;> simp [accepted, List.argmax_concat, ih]

theorem mem_table {l : List (β × α)} {e : β × α} : e ∈ table l ↔ e ∈ l := by
  induction l using List.reverseRecOn with
  | nil => rfl
  | append_singleton l d ih => simp [table_concat, ih]

theorem sorted_pairwise (l : List (β × α)) : (sorted l).Pairwise fun a b => b.1 ≤ a.1 :=
  have : Std.Total fun a b : β × α => b.1 ≤ a.1 := ⟨fun a b => le_total b.1 a.1⟩
  have : IsTrans (β × α) fun a b => b.1 ≤ a.1 := ⟨fun _ _ _ left right => right.trans left⟩
  List.pairwise_insertionSort _ l

theorem table_pairwise (l : List (β × α)) : (table l).Pairwise fun a b => b.1 ≤ a.1 := by
  rcases l.eq_nil_or_concat' with rfl | ⟨l, e, rfl⟩
  · exact List.Pairwise.nil
  · rw [table_concat]
    exact sorted_pairwise _

/-- The first acceptable entry of the table is the earliest registered one among those of
highest priority. -/
theorem find?_table (p : β × α → Bool) (l : List (β × α)) :
    (table l).find? p = (l.filter p).argmax (·.1) := by
  rw [find?_eq_argmax (table_pairwise l), argmax_table]

theorem find?_table_eq_some_iff {p : β × α → Bool} {l : List (β × α)} {e : β × α} :
    (table l).find? p = some e ↔ ∃ before after, l = before ++ e :: after ∧ p e ∧
      (∀ d ∈ before, p d → d.1 < e.1) ∧ ∀ d ∈ after, p d → d.1 ≤ e.1 := by
  rw [find?_table]
  exact argmax_filter_eq_some_iff

theorem find?_table_eq_none_iff {p : β × α → Bool} {l : List (β × α)} :
    (table l).find? p = none ↔ ∀ e ∈ l, ¬ p e := by
  rw [find?_table, List.argmax_eq_none, List.filter_eq_nil_iff]

end Priority
