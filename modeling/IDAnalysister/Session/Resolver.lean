import IDAnalysister.Backward.Straight
import IDAnalysister.Session.State

/-!
# Queries on one resolver, one after the other

The public methods of a `BackwardResolver` share its budget and its tables. The methods
that resolve something start from a new budget; `dereference` charges the budget that the
call before it left behind. A whole history of calls therefore answers as fresh resolvers
do exactly when every `dereference` in it still has a step left
(`replies_fresh_iff_budgeted`).
-/

namespace IDAnalysister

open Effect Memo

/-- A call of a public method. -/
inductive ResolverCall
  | resolve (q : PublicQuery)
  | dereference (addr : Int) (size : Nat)
  | collectPushSequence (callEa : Nat)

inductive Reply
  | value (v : ValueLattice)
  | addresses (pushes : List Nat)
  deriving DecidableEq

namespace ResolverCall

def program (e : ParamExtractor) : ResolverCall → Prog Session Reply
  | resolve q => do
      let v ← Session.fresh (e.resolver.program e.resolver.fuel q)
      pure (.value v)
  | dereference addr size => do
      let v ← Session.lift (e.resolver.dereference addr size)
      pure (.value v)
  | collectPushSequence callEa => do
      let pushes ← Session.lift (e.resolver.collectPushSequence callEa)
      pure (.addresses pushes)

/-- A new budget is not needed, or the one at hand has a step left, or none ever has. -/
def Budgeted (s : SessionState) : ResolverCall → Prop
  | dereference _ _ => s.budget.stepsUsed < s.budget.maxSteps ∨ s.budget.maxSteps = 0
  | _ => True

instance (s : SessionState) (q : ResolverCall) : Decidable (q.Budgeted s) := by
  cases q <;> unfold Budgeted <;> infer_instance

end ResolverCall

namespace ParamExtractor

/-- One call: its reply, and the state it leaves. -/
def serve (e : ParamExtractor) (q : ResolverCall) (s : SessionState) :
    Option Reply × SessionState :=
  Prog.attempt e.sessionHandler none (q.program e) s

/-- The replies to calls made one after the other. -/
def replies (e : ParamExtractor) : List ResolverCall → SessionState → List (Option Reply)
  | [], _ => []
  | q :: later, s => (e.serve q s).1 :: replies e later (e.serve q s).2

/-- The reply of a resolver on which nothing was called before. -/
def freshReply (e : ParamExtractor) (q : ResolverCall) : Option Reply := (e.serve q e.new).1

/-- Every `dereference` of a history finds a step in the budget. -/
def AllBudgeted (e : ParamExtractor) : List ResolverCall → SessionState → Prop
  | [], _ => True
  | q :: later, s => q.Budgeted s ∧ AllBudgeted e later (e.serve q s).2

end ParamExtractor

section Served

open Prog

variable {e : ParamExtractor} {s : SessionState}

theorem serve_valid (q : ResolverCall) (valid : s.Valid e) : (e.serve q s).2.Valid e :=
  attempt_valid (q.program e) none valid

/-- A query returns, and what it answers depends on nothing but the port and the limits. -/
theorem serve_resolve (q : PublicQuery) (valid : s.Valid e) :
    ∃ v, e.resolver.answer q = some v ∧ (e.serve (.resolve q) s).1 = some (.value v) := by
  rcases query_bounded e.resolver q with ⟨v, b, t, ran, -⟩
  have answered : e.resolver.answer q = some v := by
    rw [answer_eq, ran e.resolver.fuel (Nat.le_refl _)]
    rfl
  refine ⟨v, answered, ?_⟩
  rw [answer_eq] at answered
  rcases fresh_served valid answered with ⟨s', served, -⟩
  simp only [ParamExtractor.serve, ResolverCall.program, bind_eq]
  rw [attempt_bind served]
  rfl

theorem dereferenced_ne (port : IdaPort) (addr : Int) (size : Nat) :
    dereferenced port addr size ≠ budgetExceeded := by
  unfold dereferenced
  split <;> intro same <;> cases same

theorem serve_dereference (addr : Int) (size : Nat) (valid : s.Valid e) :
    (e.serve (.dereference addr size) s).1 =
      some (.value (if s.budget.stepsUsed + 1 ≤ s.budget.maxSteps
        then dereferenced e.port.toIdaPort addr size else budgetExceeded)) := by
  have ran : attempt (handler e.port.toIdaPort) none (e.resolver.dereference addr size) s.budget =
      (some (if s.budget.stepsUsed + 1 ≤ s.budget.maxSteps
        then dereferenced e.port.toIdaPort addr size else budgetExceeded),
        s.budget.step.2) :=
    @attempt_dereference e.resolver addr size s.budget
  rcases query_served valid ran with ⟨s', served, -⟩
  simp only [ParamExtractor.serve, ResolverCall.program, bind_eq]
  rw [attempt_bind served]
  rfl

theorem serve_collectPushSequence (callEa : Nat) (valid : s.Valid e) :
    ∃ pushes, (∀ b, attempt (handler e.port.toIdaPort) none
        (e.resolver.collectPushSequence callEa) b = (some pushes, b)) ∧
      (e.serve (.collectPushSequence callEa) s).1 = some (.addresses pushes) := by
  rcases collectPushSequence_returns e.resolver callEa with ⟨pushes, ran⟩
  refine ⟨pushes, ran, ?_⟩
  rcases query_served valid (ran s.budget) with ⟨s', served, -⟩
  simp only [ParamExtractor.serve, ResolverCall.program, bind_eq]
  rw [attempt_bind served]
  rfl

/-- A call answers as on a fresh resolver exactly when it is budgeted. -/
theorem serve_eq_freshReply_iff (q : ResolverCall) (valid : s.Valid e) :
    (e.serve q s).1 = e.freshReply q ↔ q.Budgeted s := by
  cases q with
  | resolve q =>
      rcases serve_resolve q valid with ⟨v, answered, served⟩
      rcases serve_resolve q e.new_valid with ⟨v', answered', served'⟩
      have same : v = v' := Option.some.inj (answered.symm.trans answered')
      rw [ParamExtractor.freshReply, served, served', same]
      simp [ResolverCall.Budgeted]
  | collectPushSequence callEa =>
      rcases serve_collectPushSequence callEa valid with ⟨l, ran, served⟩
      rcases serve_collectPushSequence callEa e.new_valid with ⟨l', ran', served'⟩
      have same : l = l' := by
        have both := (ran e.new.budget).symm.trans (ran' e.new.budget)
        simpa using both
      rw [ParamExtractor.freshReply, served, served', same]
      simp [ResolverCall.Budgeted]
  | dereference addr size =>
      have limit := valid.maxSteps
      have different := dereferenced_ne e.port.toIdaPort addr size
      have fresh : e.new.budget.stepsUsed = 0 ∧ e.new.budget.maxSteps = e.maxSteps := ⟨rfl, rfl⟩
      rw [ParamExtractor.freshReply, serve_dereference addr size valid,
        serve_dereference addr size e.new_valid, fresh.1, fresh.2, limit]
      simp only [ResolverCall.Budgeted, limit, Option.some.injEq, Reply.value.injEq]
      by_cases left : s.budget.stepsUsed + 1 ≤ e.maxSteps
      · have first : 0 + 1 ≤ e.maxSteps := by omega
        rw [if_pos left, if_pos first]
        simp only [true_iff]
        omega
      · rw [if_neg left]
        by_cases first : 0 + 1 ≤ e.maxSteps
        · rw [if_pos first]
          have refuted : budgetExceeded ≠ dereferenced e.port.toIdaPort addr size := different.symm
          simp only [refuted, false_iff]
          omega
        · rw [if_neg first]
          simp only [true_iff]
          omega

/-- Every call returns. -/
theorem serve_returns (q : ResolverCall) (valid : s.Valid e) : (e.serve q s).1.isSome := by
  cases q with
  | resolve q =>
      rcases serve_resolve q valid with ⟨v, -, served⟩
      rw [served]
      rfl
  | dereference addr size =>
      rw [serve_dereference addr size valid]
      rfl
  | collectPushSequence callEa =>
      rcases serve_collectPushSequence callEa valid with ⟨l, -, served⟩
      rw [served]
      rfl

theorem replies_fresh_of_valid (calls : List ResolverCall) (valid : s.Valid e) :
    e.replies calls s = calls.map e.freshReply ↔ e.AllBudgeted calls s := by
  induction calls generalizing s with
  | nil => exact iff_of_true rfl trivial
  | cons q later ih =>
      rw [ParamExtractor.replies, ParamExtractor.AllBudgeted, List.map_cons, List.cons.injEq,
        serve_eq_freshReply_iff q valid, ih (serve_valid q valid)]

theorem replies_return (calls : List ResolverCall) (valid : s.Valid e) :
    ∀ reply ∈ e.replies calls s, reply.isSome := by
  induction calls generalizing s with
  | nil =>
      intro reply member
      cases member
  | cons q later ih =>
      intro reply member
      rcases List.mem_cons.mp member with rfl | after
      · exact serve_returns q valid
      · exact ih (serve_valid q valid) reply after

end Served

/-- On one resolver, a whole history of calls is answered, and every answer is that of a
fresh resolver exactly when each `dereference` in it still has a step in the budget that
the call before it left behind. -/
theorem replies_fresh_iff_budgeted (e : ParamExtractor) (calls : List ResolverCall) :
    (∀ reply ∈ e.replies calls e.new, reply.isSome) ∧
      (e.replies calls e.new = calls.map e.freshReply ↔ e.AllBudgeted calls e.new) :=
  ⟨replies_return calls e.new_valid, replies_fresh_of_valid calls e.new_valid⟩

/-! ## A query that spends the whole budget -/

namespace SpentBudget

def port : FacadePort where
  toIdaPort := CountedLoop.port
  codeRefsTo _ := []
  registerByName := FakeIdaPort.register
  getPrototype _ := none

/-- A session with two steps for each query. -/
def extractor : ParamExtractor where
  port
  registry := defaultRegistry
  maxSteps := 2

/-- The query needs a third step for the path around the loop. -/
def calls : List ResolverCall :=
  [.resolve (.register 6 0x401005), .dereference 0x403000 4]

theorem dereference_refused :
    extractor.replies calls extractor.new ≠ calls.map extractor.freshReply := by
  decide

end SpentBudget

end IDAnalysister
