import IDAnalysister.Adapters.IdaDatabase
import IDAnalysister.Library.Remembered

/-!
# What the adapter remembers of registers

`register_view` and `call_clobbered_registers` of `IdaPortImpl` keep what they computed for the
lifetime of the adapter, while the calls they make may fail at any time. A view that was not
computed because a call raised is not remembered. One that was computed is, and with it what the
width lookup fell back on when it was the one that failed.
-/

namespace IDAnalysister

open Remembered

namespace IdaPortImpl

/-- `_register_views` and `_call_clobbered`. -/
structure RegisterMemo where
  registerViews : List ((Nat × Nat) × Option RegisterView) := []
  callClobbered : Option (List Nat) := none

namespace RegisterMemo

variable (api : IdaApi)

/-- `register_view`, on an adapter that remembers. -/
def registerView (reg sizeBytes : Nat) (m : RegisterMemo) : Option RegisterView × RegisterMemo :=
  let asked := ask (fun key => freshView api key.1 key.2) (reg, sizeBytes) m.registerViews
  (safe none asked.1, { m with registerViews := asked.2 })

/-- `call_clobbered_registers`. -/
def callClobberedRegisters (m : RegisterMemo) : List Nat × RegisterMemo :=
  match m.callClobbered with
  | some regs => (regs, m)
  | none => (freshClobbered api, { m with callClobbered := some (freshClobbered api) })

end RegisterMemo

/-- A question to the adapter, with what its calls return at that time. -/
inductive RegisterCall
  | view (api : IdaApi) (reg sizeBytes : Nat)
  | clobbered (api : IdaApi)

namespace RegisterCall

def api : RegisterCall → IdaApi
  | view api _ _ => api
  | clobbered api => api

/-- What the adapter remembers after a question. -/
def after (m : RegisterMemo) : RegisterCall → RegisterMemo
  | view api reg sizeBytes => (m.registerView api reg sizeBytes).2
  | clobbered api => (m.callClobberedRegisters api).2

end RegisterCall

/-- Whatever does not raise now returns what it always does. -/
structure FailsLike (api' api : IdaApi) : Prop where
  getRegName : ∀ reg width, api'.getRegName reg width = none ∨
    api'.getRegName reg width = api.getRegName reg width
  getRegInfo : ∀ name, api'.getRegInfo name = none ∨ api'.getRegInfo name = api.getRegInfo name
  str2reg : ∀ name, api'.str2reg name = none ∨ api'.str2reg name = api.str2reg name

/-- The widths that views are measured by are learnt as ever. -/
def KeepsWidths (api' api : IdaApi) : Prop :=
  ∀ name, registerBitWidth api' name = registerBitWidth api name

/-- The registers that a call changes are named as ever. -/
def KeepsNames (api' api : IdaApi) : Prop := freshClobbered api' = freshClobbered api

/-- No view, or two at the same place of the same register. -/
inductive SamePlace : Option RegisterView → Option RegisterView → Prop
  | none : SamePlace none none
  | view {v w : RegisterView} : v.parent = w.parent → v.bitOffset = w.bitOffset →
    SamePlace (some v) (some w)

theorem SamePlace.refl (v : Option RegisterView) : SamePlace v v := by
  cases v with
  | none => exact .none
  | some v => exact .view rfl rfl

/-! ## One view -/

section Views

variable {api' api : IdaApi} {reg width size : Nat} {view : Option RegisterView}

/-- What is computed while calls fail is at the place where it always is, and the same when the
widths are. -/
theorem viewOfName_of_failing (fails : FailsLike api' api) {name : String}
    (made : viewOfName api' reg width name = some view) :
    ∃ v, viewOfName api reg width name = some v ∧ SamePlace view v ∧
      (KeepsWidths api' api → view = v) := by
  rcases Option.bind_eq_some_iff.mp made with ⟨info, named, rest⟩
  have named' : api.getRegInfo name = some info := by
    rcases fails.getRegInfo name with raised | same
    · rw [raised] at named
      cases named
    · rw [← same, named]
  rw [viewOfName, named', Option.bind_eq_bind, Option.bind_some]
  cases known : info.filter (·.1 ≠ "") with
  | none =>
      rw [known] at rest
      cases rest
      exact ⟨_, rfl, .refl _, fun _ => rfl⟩
  | some parent =>
      rcases parent with ⟨parentName, range⟩
      rw [known] at rest
      rcases Option.bind_eq_some_iff.mp rest with ⟨number, numbered, made⟩
      have numbered' : api.str2reg parentName = some number := by
        rcases fails.str2reg parentName with raised | same
        · rw [raised] at numbered
          cases numbered
        · rw [← same, numbered]
      dsimp only
      rw [numbered']
      by_cases unknown : number < 0
      · rw [if_pos unknown] at made
        cases made
        exact ⟨none, if_pos unknown, .none, fun _ => rfl⟩
      · rw [if_neg unknown] at made
        cases made
        refine ⟨some (viewIn number.toNat range (registerBitWidth api parentName)),
          if_neg unknown, .view rfl rfl, fun widths => ?_⟩
        rw [widths parentName]

theorem viewOfWidths_of_failing (fails : FailsLike api' api) {widths : List Nat}
    (made : viewOfWidths api' reg widths = some view) :
    ∃ v, viewOfWidths api reg widths = some v ∧ SamePlace view v ∧
      (KeepsWidths api' api → view = v) := by
  induction widths with
  | nil =>
      cases made
      exact ⟨none, rfl, .none, fun _ => rfl⟩
  | cons width rest ih =>
      rcases Option.bind_eq_some_iff.mp made with ⟨answer, named, later⟩
      have named' : api.getRegName reg width = some answer := by
        rcases fails.getRegName reg width with raised | same
        · rw [raised] at named
          cases named
        · rw [← same, named]
      rw [viewOfWidths, named']
      cases name : truthy answer with
      | none =>
          rw [name] at later
          rcases ih later with ⟨v, found⟩
          exact ⟨v, by simpa [name] using found⟩
      | some name' =>
          rw [name] at later
          rcases viewOfName_of_failing fails later with ⟨v, found⟩
          exact ⟨v, by simpa [name] using found⟩

theorem freshView_of_failing (fails : FailsLike api' api)
    (made : freshView api' reg size = some view) :
    ∃ v, freshView api reg size = some v ∧ SamePlace view v ∧ (KeepsWidths api' api → view = v) :=
  viewOfWidths_of_failing fails made

end Views

/-! ## Runs -/

/-- Every remembered view is at the place where it always is; it is the same, and so are the
remembered registers, if `widths` and `names` hold. -/
structure RegisterMemo.Valid (api : IdaApi) (widths names : Prop) (m : RegisterMemo) : Prop where
  views : Sound (fun key view => ∃ v, freshView api key.1 key.2 = some v ∧ SamePlace view v ∧
    (widths → view = v)) m.registerViews
  clobbered : ∀ regs, m.callClobbered = some regs → names → regs = freshClobbered api

section Runs

variable {api api' : IdaApi} {widths names : Prop} {m : RegisterMemo}

theorem RegisterMemo.Valid.registerView (valid : m.Valid api widths names)
    (fails : FailsLike api' api) (kept : widths → KeepsWidths api' api) (reg size : Nat) :
    (m.registerView api' reg size).2.Valid api widths names ∧
      ∀ view, (ask (fun key => freshView api' key.1 key.2) (reg, size) m.registerViews).1 =
        some view → ∃ v, freshView api reg size = some v ∧ SamePlace view v ∧
          (widths → view = v) := by
  have asked := valid.views.ask (fun key => freshView api' key.1 key.2) (reg, size)
    fun view made => by
      rcases freshView_of_failing fails made with ⟨v, found, place, same⟩
      exact ⟨v, found, place, fun widths => same (kept widths)⟩
  exact ⟨⟨asked.1, valid.clobbered⟩, asked.2⟩

theorem RegisterMemo.Valid.callClobbered (valid : m.Valid api widths names)
    (kept : names → KeepsNames api' api) :
    (m.callClobberedRegisters api').2.Valid api widths names ∧
      (names → (m.callClobberedRegisters api').1 = freshClobbered api) := by
  unfold RegisterMemo.callClobberedRegisters
  cases held : m.callClobbered with
  | some regs => exact ⟨valid, valid.clobbered regs held⟩
  | none =>
      refine ⟨⟨valid.views, fun regs same named => ?_⟩, kept⟩
      cases same
      exact kept named

theorem RegisterMemo.Valid.after (valid : m.Valid api widths names) {call : RegisterCall}
    (fails : FailsLike call.api api) (keptWidths : widths → KeepsWidths call.api api)
    (keptNames : names → KeepsNames call.api api) : (call.after m).Valid api widths names := by
  cases call with
  | view api' reg size => exact (valid.registerView fails keptWidths reg size).1
  | clobbered api' => exact (valid.callClobbered keptNames).1

theorem RegisterMemo.Valid.run {calls : List RegisterCall}
    (fails : ∀ call ∈ calls, FailsLike call.api api)
    (keptWidths : widths → ∀ call ∈ calls, KeepsWidths call.api api)
    (keptNames : names → ∀ call ∈ calls, KeepsNames call.api api)
    (valid : m.Valid api widths names) :
    (calls.foldl RegisterCall.after m).Valid api widths names := by
  induction calls generalizing m with
  | nil => exact valid
  | cons call rest ih =>
      have next := valid.after (fails call List.mem_cons_self)
        (fun holds => keptWidths holds call List.mem_cons_self)
        (fun holds => keptNames holds call List.mem_cons_self)
      exact ih (fun c member => fails c (List.mem_cons_of_mem call member))
        (fun holds c member => keptWidths holds c (List.mem_cons_of_mem call member))
        (fun holds c member => keptNames holds c (List.mem_cons_of_mem call member)) next

theorem RegisterMemo.valid_new : ({} : RegisterMemo).Valid api widths names :=
  ⟨sound_nil, nofun⟩

theorem after_keeps {key : Nat × Nat} {view : Option RegisterView}
    (held : m.registerViews.lookup key = some view) (call : RegisterCall) :
    (call.after m).registerViews.lookup key = some view := by
  cases call with
  | view api' reg size => exact ask_keeps held
  | clobbered api' =>
      change (m.callClobberedRegisters api').2.registerViews.lookup key = some view
      unfold RegisterMemo.callClobberedRegisters
      cases m.callClobbered <;> exact held

/-- A view that was given is given again, whatever happens in between. -/
theorem registerView_again {calls : List RegisterCall} {reg size : Nat} {view : RegisterView}
    (given : (m.registerView api reg size).1 = some view) (now : IdaApi) :
    ((calls.foldl RegisterCall.after (m.registerView api reg size).2).registerView now
      reg size).1 = some view := by
  have held : (m.registerView api reg size).2.registerViews.lookup (reg, size) =
      some (some view) := by
    refine entry_of_ask ?_
    change safe none (ask (fun key => freshView api key.1 key.2) (reg, size)
      m.registerViews).1 = some view at given
    cases answered : (ask (fun key => freshView api key.1 key.2) (reg, size)
        m.registerViews).1 with
    | none =>
        rw [answered] at given
        cases given
    | some view' =>
        rw [answered] at given
        exact congrArg some given
  generalize (m.registerView api reg size).2 = m' at held ⊢
  have kept : (calls.foldl RegisterCall.after m').registerViews.lookup (reg, size) =
      some (some view) := by
    induction calls generalizing m' with
    | nil => exact held
    | cons call rest ih => exact ih _ (after_keeps held call)
  change safe none (ask _ _ _).1 = some view
  rw [ask_of_entry kept]
  rfl

/-- What the adapter remembers after a run of questions. -/
def remembered (calls : List RegisterCall) : RegisterMemo := calls.foldl RegisterCall.after {}

/-- After any run of questions in which calls may have failed at any time: a view that is given
now is at the place where the port without a memory has it, and when nothing fails now there is
one exactly where that port has one. If the widths were learnt all along it is the same view,
and if the names were the registers that a call changes are the same. A view that was given is
given again, whatever fails then. -/
theorem registerMemo_robust (api : IdaApi) (calls : List RegisterCall)
    (fails : ∀ call ∈ calls, FailsLike call.api api) :
    (∀ reg size, SamePlace ((remembered calls).registerView api reg size).1
      ((port api).registerView reg size)) ∧
    (∀ now, FailsLike now api → ∀ reg size view,
      ((remembered calls).registerView now reg size).1 = some view →
        SamePlace (some view) ((port api).registerView reg size)) ∧
    ((∀ call ∈ calls, KeepsWidths call.api api) → ∀ reg size,
      ((remembered calls).registerView api reg size).1 = (port api).registerView reg size) ∧
    ((∀ call ∈ calls, KeepsNames call.api api) →
      ((remembered calls).callClobberedRegisters api).1 = (port api).callClobberedRegisters) ∧
    (∀ now later then' reg size view,
      ((remembered calls).registerView now reg size).1 = some view →
        ((List.foldl RegisterCall.after ((remembered calls).registerView now reg size).2
          later).registerView then' reg size).1 = some view) := by
  have valid : (remembered calls).Valid api (∀ call ∈ calls, KeepsWidths call.api api)
      (∀ call ∈ calls, KeepsNames call.api api) :=
    RegisterMemo.Valid.run fails id id RegisterMemo.valid_new
  have itself : FailsLike api api :=
    ⟨fun _ _ => Or.inr rfl, fun _ => Or.inr rfl, fun _ => Or.inr rfl⟩
  -- nothing is missing but what is not computed without a memory either
  have missing {reg size : Nat}
      (failed : (ask (fun key => freshView api key.1 key.2) (reg, size)
        (remembered calls).registerViews).1 = none) : freshView api reg size = none := by
    cases found : (remembered calls).registerViews.lookup (reg, size) with
    | some view =>
        rw [ask_of_entry found] at failed
        cases failed
    | none => rwa [ask_of_missing found] at failed
  refine ⟨fun reg size => ?_, fun now failing reg size view given => ?_, fun widths reg size => ?_,
    fun names => (valid.callClobbered fun _ => rfl).2 names,
    fun now later then' reg size view given => registerView_again given then'⟩
  · change SamePlace (safe none (ask _ _ _).1) (safe none (freshView api reg size))
    cases given : (ask (fun key => freshView api key.1 key.2) (reg, size)
        (remembered calls).registerViews).1 with
    | none =>
        rw [missing given]
        exact .none
    | some view =>
        rcases (valid.registerView itself (fun _ _ => rfl) reg size).2 view given with
          ⟨v, found, place, -⟩
        rw [found]
        exact place
  · change SamePlace _ (safe none (freshView api reg size))
    change safe none (ask (fun key => freshView now key.1 key.2) (reg, size)
      (remembered calls).registerViews).1 = some view at given
    cases answered : (ask (fun key => freshView now key.1 key.2) (reg, size)
        (remembered calls).registerViews).1 with
    | none =>
        rw [answered] at given
        cases given
    | some view' =>
        rw [answered] at given
        obtain rfl : view' = some view := given
        have weak : (remembered calls).Valid api False False :=
          RegisterMemo.Valid.run fails False.elim False.elim RegisterMemo.valid_new
        rcases (weak.registerView failing False.elim reg size).2 _ answered with
          ⟨v, found, place, -⟩
        rw [found]
        exact place
  · change safe none (ask _ _ _).1 = safe none (freshView api reg size)
    cases given : (ask (fun key => freshView api key.1 key.2) (reg, size)
        (remembered calls).registerViews).1 with
    | none => rw [missing given]
    | some view =>
        rcases (valid.registerView itself (fun _ _ => rfl) reg size).2 view given with
          ⟨v, found, -, same⟩
        rw [found, same widths]

end Runs

/-- The first of the questions is met by an exception. -/
theorem registerMemo_robust_databaseLoop : ((remembered
    [.view { DatabaseLoop.api with getRegInfo := fun _ => none } 6 4,
      .clobbered DatabaseLoop.api]).registerView DatabaseLoop.api 6 4).1 =
        some ⟨6, 0, 32, 32, true⟩ := by
  have fails : ∀ call ∈
      [RegisterCall.view { DatabaseLoop.api with getRegInfo := fun _ => none } 6 4,
        .clobbered DatabaseLoop.api], FailsLike call.api DatabaseLoop.api := by
    intro call member
    rcases List.mem_pair.mp member with rfl | rfl
    · exact ⟨fun _ _ => Or.inr rfl, fun _ => Or.inl rfl, fun _ => Or.inr rfl⟩
    · exact ⟨fun _ _ => Or.inr rfl, fun _ => Or.inr rfl, fun _ => Or.inr rfl⟩
  rw [(registerMemo_robust DatabaseLoop.api _ fails).2.2.1 ?_ 6 4]
  · decide +kernel
  · intro call member
    rcases List.mem_pair.mp member with rfl | rfl
    · exact fun _ => rfl
    · exact fun _ => rfl

end IdaPortImpl

end IDAnalysister
