import IDAnalysister.Library.Interruption

/-!
# Programs that keep to a part of an interface

`Confined ok may good p`: as long as the calls of `p` are answered as `may` allows, every one of
them is `ok`, and what `p` returns is `good`. Confined programs are put together from confined
parts, one rule for each way to put programs together. Two handlers that answer the `ok` calls
alike, and as `may` allows, run such a program alike (`Confined.attempt`); how they differ
elsewhere does not matter.
-/

namespace Effect

namespace Prog

variable {S S' : Signature} {α β σ τ : Type}

inductive Confined (ok : S.Op → Prop) (may : (o : S.Op) → S.Ans o → Prop) (good : α → Prop) :
    Prog S α → Prop
  | pure {a : α} : good a → Confined ok may good (.pure a)
  | diverge : Confined ok may good .diverge
  | call {o : S.Op} {k : S.Ans o → Prog S α} :
    ok o → (∀ r, may o r → Confined ok may good (k r)) → Confined ok may good (.call o k)

section

variable {ok : S.Op → Prop} {may : (o : S.Op) → S.Ans o → Prop}

/-- A program that is confined whatever it is answered. -/
theorem Uses.confined {p : Prog S α} (uses : Uses ok p) : Confined ok may (fun _ => True) p := by
  induction uses with
  | pure a => exact .pure trivial
  | diverge => exact .diverge
  | call allowed _ ih => exact .call allowed fun r _ => ih r

namespace Confined

variable {good : α → Prop} {good' : β → Prop}

theorem bind {p : Prog S α} {f : α → Prog S β} (first : Confined ok may good p)
    (second : ∀ a, good a → Confined ok may good' (f a)) : Confined ok may good' (p.bind f) := by
  induction first with
  | pure returned => exact second _ returned
  | diverge => exact .diverge
  | call allowed _ ih => exact .call allowed ih

theorem traverse {f : α → Prog S β} {xs : List α}
    (each : ∀ x ∈ xs, Confined ok may (fun _ => True) (f x)) :
    Confined ok may (fun _ => True) (Prog.traverse f xs) := by
  induction xs with
  | nil => exact .pure trivial
  | cons x xs ih =>
      refine (each x List.mem_cons_self).bind fun y _ => ?_
      refine (ih fun z member => each z (List.mem_cons_of_mem x member)).bind fun ys _ => ?_
      exact .pure trivial

/-- Every operation is replaced by a program that answers as it may be answered. -/
theorem interpret {ok' : S'.Op → Prop} {may' : (o : S'.Op) → S'.Ans o → Prop}
    {impl : (o : S'.Op) → Prog S (S'.Ans o)} (each : ∀ o, ok' o → Confined ok may (may' o) (impl o))
    {p : Prog S' α} (confined : Confined ok' may' good p) :
    Confined ok may good (Prog.interpret impl p) := by
  induction confined with
  | pure returned => exact .pure returned
  | diverge => exact .diverge
  | call allowed _ ih => exact (each _ allowed).bind ih

/-- Handlers that agree on the calls that a program keeps to run it alike, wherever an exception
ends it. -/
theorem attempt {R : σ → τ → Prop} {h : Handler S σ} {h' : Handler S τ}
    (agree : ∀ o s s', ok o → R s s' →
      (h o s).1 = (h' o s').1 ∧ may o (h' o s').1 ∧ R (h o s).2 (h' o s').2)
    {p : Prog S α} (confined : Confined ok may good p) (limit : Option Nat) {s : σ} {s' : τ}
    (related : R s s') :
    (Prog.attempt h limit p s).1 = (Prog.attempt h' limit p s').1 ∧
      R (Prog.attempt h limit p s).2 (Prog.attempt h' limit p s').2 := by
  induction confined generalizing s s' limit with
  | pure returned => rcases limit with _ | _ | n <;> exact ⟨rfl, related⟩
  | diverge => rcases limit with _ | _ | n <;> exact ⟨rfl, related⟩
  | call allowed _ ih =>
      rcases agree _ s s' allowed related with ⟨same, answered, next⟩
      rcases limit with _ | _ | n
      · simp only [Prog.attempt]
        rw [same]
        exact ih _ answered none next
      · exact ⟨rfl, related⟩
      · simp only [Prog.attempt]
        rw [same]
        exact ih _ answered (some n) next

end Confined

end

end Prog

end Effect
