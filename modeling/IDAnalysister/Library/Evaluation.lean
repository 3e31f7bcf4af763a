import IDAnalysister.Library.Interruption
import IDAnalysister.Library.Loop

/-!
# Programs that compute what a function computes

`Evaluates f ok p r`: when every call `o` is answered `f o`, the program `p` answers `r`, and each
call it makes is `ok`. A program written beside a pure definition is related to it rule by rule.
A handler that answers `ok` calls as `f` does then runs the program to that answer
(`Evaluates.attempt`), and wherever an exception ends the run, it has made `ok` calls only
(`Evaluates.calls`).
-/

namespace Effect

namespace Prog

variable {S : Signature} {α β σ τ : Type}

/-- Answered by `f`, the program returns `r`, and makes no other calls than `ok` ones. -/
inductive Evaluates (f : (o : S.Op) → S.Ans o) (ok : S.Op → Prop) : Prog S α → Option α → Prop
  | pure (a : α) : Evaluates f ok (.pure a) (some a)
  | diverge : Evaluates f ok .diverge none
  | call {o : S.Op} {k : S.Ans o → Prog S α} {r : Option α} :
    ok o → Evaluates f ok (k (f o)) r → Evaluates f ok (.call o k) r

/-- Repeat a program under a bound. -/
def loop (finished : τ → Bool) (body : τ → Prog S τ) : Nat → τ → Prog S τ
  | 0, t => if finished t then .pure t else .diverge
  | bound + 1, t => if finished t then .pure t else (body t).bind (loop finished body bound)

namespace Evaluates

variable {f : (o : S.Op) → S.Ans o} {ok : S.Op → Prop}

theorem bind {p : Prog S α} {g : α → Prog S β} {r : Option α} {r' : α → Option β}
    (first : Evaluates f ok p r) (second : ∀ a, Evaluates f ok (g a) (r' a)) :
    Evaluates f ok (p.bind g) (r.bind r') := by
  induction first with
  | pure a => exact second a
  | diverge => exact .diverge
  | call allowed _ ih => exact .call allowed ih

theorem loop {finished : τ → Bool} {body : τ → Prog S τ} {body' : τ → Option τ}
    (each : ∀ t, Evaluates f ok (body t) (body' t)) (bound : Nat) (t : τ) :
    Evaluates f ok (Prog.loop finished body bound t) (Loop.run finished body' bound t) := by
  induction bound generalizing t with
  | zero =>
      unfold Prog.loop Loop.run
      split
      · exact .pure t
      · exact .diverge
  | succ bound ih =>
      unfold Prog.loop Loop.run
      split
      · exact .pure t
      · exact (each t).bind ih

section Runs

variable {handler : Handler S σ} {I : σ → Prop} {p : Prog S α} {r : Option α} {s : σ}

/-- Answering `ok` calls as `f` does is enough to compute what `f` does. -/
theorem attempt (evaluates : Evaluates f ok p r)
    (answers : ∀ o s, ok o → I s → (handler o s).1 = f o)
    (keeps : ∀ o s, ok o → I s → I (handler o s).2) (start : I s) :
    (Prog.attempt handler none p s).1 = r ∧ I (Prog.attempt handler none p s).2 := by
  induction evaluates generalizing s with
  | pure a => exact ⟨rfl, start⟩
  | diverge => exact ⟨rfl, start⟩
  | call allowed _ ih =>
      rw [attempt_call, answers _ s allowed start]
      exact ih (keeps _ s allowed start)

/-- Wherever a run ends, the calls it has made are `ok`. -/
theorem calls (evaluates : Evaluates f ok p r)
    (answers : ∀ o s, ok o → I s → (handler o s).1 = f o)
    (keeps : ∀ o s, ok o → I s → I (handler o s).2) (limit : Option Nat) (start : I s) :
    ∃ made : List S.Op, (∀ o ∈ made, ok o) ∧
      (Prog.attempt handler limit p s).2 = made.foldl (fun s o => (handler o s).2) s := by
  induction evaluates generalizing s limit with
  | pure a => rcases limit with _ | _ | n <;> exact ⟨[], List.forall_mem_nil _, rfl⟩
  | diverge => rcases limit with _ | _ | n <;> exact ⟨[], List.forall_mem_nil _, rfl⟩
  | @call o k r allowed _ ih =>
      have same := answers o s allowed start
      rcases limit with _ | _ | n
      · rcases ih none (keeps o s allowed start) with ⟨made, all, ended⟩
        rw [← same] at ended
        exact ⟨o :: made, List.forall_mem_cons.mpr ⟨allowed, all⟩, ended⟩
      · exact ⟨[], List.forall_mem_nil _, rfl⟩
      · rcases ih (some n) (keeps o s allowed start) with ⟨made, all, ended⟩
        rw [← same] at ended
        exact ⟨o :: made, List.forall_mem_cons.mpr ⟨allowed, all⟩, ended⟩

end Runs

end Evaluates

end Prog

end Effect
