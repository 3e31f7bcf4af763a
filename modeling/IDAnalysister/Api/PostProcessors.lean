import IDAnalysister.Adapters.IdaDatabase
import IDAnalysister.Adapters.IntegerReads
import IDAnalysister.Api.StringDeref

/-!
# Chains of post-processors

`HexFormat`, `IntCast` and `StructFieldDeref` (`postproc/builtins.py`), and what a chain makes of
a pointer. A row of struct fields follows the links of a structure in the image, however long it
is: it arrives where the structure leads, or names the first field that is not mapped.
-/

namespace IDAnalysister

open ValueLattice IdaPortImpl

/-! ## The post-processors -/

def hexFormat : PostProcessor where
  name := "hex_format"
  process
    | concrete (.int n) _, _ => some (.concrete (.str (hex n)) .string)
    | _, _ => some (.unknown .unsupportedOperandShape "not an integer value")

def intCast : PostProcessor where
  name := "int_cast"
  process value _ :=
    match addressOf value with
    | none => some (.unknown .unsupportedOperandShape "not an integer-shaped value")
    | some n => some (.concrete (.int n) .int)

/-- What a `StructFieldDeref` is built from. -/
structure StructField where
  offset : Int
  size : Int
  signed : Bool := false
  deriving DecidableEq

/-- `StructFieldDeref`, with the port's reader as a parameter. -/
def structFieldDeref (readInt : Int → Int → Bool → Option Int) (field : StructField) :
    PostProcessor where
  name := "struct_field"
  process value _ :=
    match addressOf value with
    | none => some (.unknown .unsupportedOperandShape "not a pointer-shaped value")
    | some base =>
        match readInt (base + field.offset) field.size field.signed with
        | none => some (.unknown .memoryReadFailed ("no data at " ++ hex (base + field.offset)))
        | some raw => some (.concrete (.int raw) .int)

/-! ## Chains -/

section Chains

variable {port : FacadePort} {value : ValueLattice} {n : Int}

theorem runPostProcessors_unknown (steps : List PostProcessor) (unknown : value.isKnown = false) :
    runPostProcessors port steps value = value := by
  cases steps with
  | nil => rfl
  | cons step rest => rw [runPostProcessors, unknown, if_neg Bool.false_ne_true]

/-- Two chains one after the other are one chain. -/
theorem runPostProcessors_append (first second : List PostProcessor) :
    runPostProcessors port (first ++ second) value =
      runPostProcessors port second (runPostProcessors port first value) := by
  induction first generalizing value with
  | nil => rfl
  | cons step rest ih =>
      rw [List.cons_append, runPostProcessors, runPostProcessors]
      split
      · cases step.process value port with
        | none => exact (runPostProcessors_unknown second rfl).symm
        | some processed => exact ih
      · rename_i unknown
        exact (runPostProcessors_unknown second (Bool.eq_false_iff.mpr unknown)).symm

theorem runPostProcessors_cons {step : PostProcessor} {rest : List PostProcessor}
    {processed : ValueLattice} (known : value.isKnown)
    (done : step.process value port = some processed) :
    runPostProcessors port (step :: rest) value = runPostProcessors port rest processed := by
  rw [runPostProcessors, if_pos known, done]

end Chains

/-! ## Structures in the image -/

/-- A row of fields leads from one address to what the last of them holds. -/
inductive Linked (image : MemoryImage) : List StructField → Int → Int → Prop
  | here (base : Int) : Linked image [] base base
  | field {field : StructField} {rest : List StructField} {base held last : Int} :
    Representable field.size.toNat field.signed held →
    image.Holds (base + field.offset) (toBytes field.size.toNat held) →
    Linked image rest held last → Linked image (field :: rest) base last

/-- Some byte of a field is not mapped. -/
def Unmapped (image : MemoryImage) (addr : Int) (size : Nat) : Prop :=
  ∃ k < size, image (addr + k) = none

/-- The reader that `StructFieldDeref` finds in a port. -/
def fieldReader (api : IdaApi) (addr size : Int) (signed : Bool) : Option Int :=
  readInt api addr size.toNat signed

/-- The chain of one `StructFieldDeref` for each field. -/
def fieldChain (api : IdaApi) (fields : List StructField) : List PostProcessor :=
  fields.map (structFieldDeref (fieldReader api))

section Structures

variable {api : IdaApi} {port : FacadePort} {value : ValueLattice} {base last : Int}

/-- What cannot be read is not mapped as a whole. -/
theorem unmapped_of_readInt {addr : Int} {size : Nat} {signed : Bool}
    (missing : readInt api addr size signed = none) : Unmapped api.bytes.image addr size := by
  by_contra mapped
  have byte : ∀ k < size, ∃ b, api.bytes.image (addr + k) = some b := by
    intro k below
    exact Option.ne_none_iff_exists'.mp fun unmapped => mapped ⟨k, below, unmapped⟩
  have read : readBytes api addr size =
      some ((List.range size).map fun k : Nat => (api.bytes.image (addr + k)).getD 0) := by
    refine readBytes_eq_some.mpr ⟨by simp, fun k inside => ?_⟩
    have below : k < size := by simpa using inside
    rcases byte k below with ⟨b, there⟩
    simp [there]
  rw [readInt, read] at missing
  cases missing

/-- One field: what it holds, or that it is not mapped. -/
theorem structFieldDeref_process (pointer : addressOf value = some base) (field : StructField) :
    (∃ held, Representable field.size.toNat field.signed held ∧
      api.bytes.image.Holds (base + field.offset) (toBytes field.size.toNat held) ∧
      (structFieldDeref (fieldReader api) field).process value port =
        some (.concrete (.int held) .int)) ∨
    (Unmapped api.bytes.image (base + field.offset) field.size.toNat ∧
      (structFieldDeref (fieldReader api) field).process value port =
        some (.unknown .memoryReadFailed ("no data at " ++ hex (base + field.offset)))) := by
  cases read : readInt api (base + field.offset) field.size.toNat field.signed with
  | none =>
      refine Or.inr ⟨unmapped_of_readInt read, ?_⟩
      simp only [structFieldDeref, pointer, fieldReader, read]
  | some held =>
      rcases readInt_eq_some.mp read with ⟨fits, holds⟩
      refine Or.inl ⟨held, fits, holds, ?_⟩
      simp only [structFieldDeref, pointer, fieldReader, read]

/-- The value with which the post-processors behind a row of fields begin. -/
def arrival (fields : List StructField) (value : ValueLattice) (last : Int) : ValueLattice :=
  if fields = [] then value else .concrete (.int last) .int

/-- A row of fields is followed to its end, or to the first field that is not mapped. -/
theorem fieldChain_run (pointer : addressOf value = some base) (fields : List StructField) :
    (∃ last, Linked api.bytes.image fields base last ∧
      runPostProcessors port (fieldChain api fields) value = arrival fields value last) ∨
    ∃ before field after reached, fields = before ++ field :: after ∧
      Linked api.bytes.image before base reached ∧
      Unmapped api.bytes.image (reached + field.offset) field.size.toNat ∧
      runPostProcessors port (fieldChain api fields) value =
        .unknown .memoryReadFailed ("no data at " ++ hex (reached + field.offset)) := by
  induction fields generalizing value base with
  | nil => exact Or.inl ⟨base, .here base, rfl⟩
  | cons field rest ih =>
      have known := isKnown_of_addressOf pointer
      rcases @structFieldDeref_process api port value base pointer field with
        ⟨held, fits, holds, done⟩ | ⟨unmapped, done⟩
      · have step : runPostProcessors port (fieldChain api (field :: rest)) value =
            runPostProcessors port (fieldChain api rest) (.concrete (.int held) .int) :=
          runPostProcessors_cons known done
        have next : addressOf (.concrete (.int held) .int) = some held := rfl
        rcases ih next with
          ⟨last, linked, ran⟩ | ⟨before, f, after, reached, split, linked, unmapped, ran⟩
        · refine Or.inl ⟨last, .field fits holds linked, ?_⟩
          rw [step, ran, arrival, arrival, if_neg (List.cons_ne_nil field rest)]
          split
          · rename_i empty
            subst empty
            cases linked
            rfl
          · rfl
        · refine Or.inr ⟨field :: before, f, after, reached, ?_, .field fits holds linked,
            unmapped, ?_⟩
          · rw [split, List.cons_append]
          · rw [step, ran]
      · refine Or.inr ⟨[], field, rest, base, rfl, .here base, unmapped, ?_⟩
        have step : runPostProcessors port (fieldChain api (field :: rest)) value =
            runPostProcessors port (fieldChain api rest)
              (.unknown .memoryReadFailed ("no data at " ++ hex (base + field.offset))) :=
          runPostProcessors_cons known done
        rw [step, runPostProcessors_unknown _ rfl]

/-- A structure that is there is followed to its end. -/
theorem Linked.run {fields : List StructField} (linked : Linked api.bytes.image fields base last)
    (pointer : addressOf value = some base) :
    runPostProcessors port (fieldChain api fields) value = arrival fields value last := by
  induction linked generalizing value with
  | here => rfl
  | @field field rest base held last fits holds linked ih =>
      have read : fieldReader api (base + field.offset) field.size field.signed = some held :=
        readInt_eq_some.mpr ⟨fits, holds⟩
      have done : (structFieldDeref (fieldReader api) field).process value port =
          some (.concrete (.int held) .int) := by
        simp only [structFieldDeref, pointer, read]
      have step : runPostProcessors port (fieldChain api (field :: rest)) value =
          runPostProcessors port (fieldChain api rest) (.concrete (.int held) .int) :=
        runPostProcessors_cons (isKnown_of_addressOf pointer) done
      have next : addressOf (.concrete (.int held) .int) = some held := rfl
      rw [step, ih next, arrival, arrival, if_neg (List.cons_ne_nil field rest)]
      split
      · rename_i empty
        subst empty
        cases linked
        rfl
      · rfl

theorem addressOf_arrival {fields : List StructField}
    (linked : Linked api.bytes.image fields base last) (pointer : addressOf value = some base) :
    addressOf (arrival fields value last) = some last := by
  unfold arrival
  split
  · rename_i empty
    subst empty
    cases linked
    exact pointer
  · rfl

/-- `ArgTypeSpec.integer` with and without `hex_format`, behind a row of struct fields: the number
that the structure leads to, and its text. -/
theorem Linked.integer {fields : List StructField}
    (linked : Linked api.bytes.image fields base last) (pointer : addressOf value = some base) :
    runPostProcessors port (fieldChain api fields ++ [intCast]) value =
        .concrete (.int last) .int ∧
      runPostProcessors port (fieldChain api fields ++ [intCast, hexFormat]) value =
        .concrete (.str (hex last)) .string := by
  have arrived := addressOf_arrival linked pointer
  have known := isKnown_of_addressOf arrived
  have cast : intCast.process (arrival fields value last) port =
      some (.concrete (.int last) .int) := by
    simp only [intCast, arrived]
  rw [runPostProcessors_append, runPostProcessors_append, linked.run pointer,
    runPostProcessors_cons known cast, runPostProcessors_cons known cast]
  exact ⟨rfl, rfl⟩

end Structures

/-- A row of struct fields behind a pointer yields an integer exactly when the structure in the
image leads there. When it leads nowhere, the chain ends at the first field that is not mapped
and names its address, whatever follows it. A text at the end of the structure is read as it is
stored. -/
theorem structFields_lead (api : IdaApi) {value : ValueLattice} {base : Int}
    (pointer : addressOf value = some base) (fields : List StructField) :
    (fields ≠ [] → ∀ n, runPostProcessors (port api) (fieldChain api fields) value =
      .concrete (.int n) .int ↔ Linked api.bytes.image fields base n) ∧
    ((∀ last, ¬ Linked api.bytes.image fields base last) →
      ∃ before field after reached, fields = before ++ field :: after ∧
        Linked api.bytes.image before base reached ∧
        Unmapped api.bytes.image (reached + field.offset) field.size.toNat ∧
        ∀ tail, runPostProcessors (port api) (fieldChain api fields ++ tail) value =
          .unknown .memoryReadFailed ("no data at " ++ hex (reached + field.offset))) ∧
    (∀ last (s : String) (maxLen : Int), Linked api.bytes.image fields base last →
      '\x00' ∉ s.toList →
      ((Text.utf8 s).length < maxLen → api.bytes.image.Holds last (Text.utf8 s ++ [0]) →
        runPostProcessors (port api)
          (fieldChain api fields ++ [cStringDeref (fun a n => readCstring api.bytes a n) maxLen])
          value = .concrete (.str s) .string) ∧
      ((Text.utf16 s).length < maxLen →
        api.bytes.image.Holds last (Text.bytesOf (Text.utf16 s ++ [(0, 0)])) →
        runPostProcessors (port api)
          (fieldChain api fields ++ [wideStringDeref (fun a n => readWstring api.bytes a n) maxLen])
          value = .concrete (.str s) .string)) := by
  refine ⟨fun nonempty n => ⟨fun ran => ?_, fun linked => ?_⟩, fun nowhere => ?_,
    fun last s maxLen linked named => ?_⟩
  · rcases fieldChain_run pointer fields with
      ⟨last, linked, arrived⟩ | ⟨_, _, _, _, _, _, _, stopped⟩
    · rw [arrived, arrival, if_neg nonempty] at ran
      cases ran
      exact linked
    · rw [stopped] at ran
      cases ran
  · rw [linked.run pointer, arrival, if_neg nonempty]
  · rcases fieldChain_run pointer fields with
      ⟨last, linked, -⟩ | ⟨before, field, after, reached, split, linked, unmapped, stopped⟩
    · exact absurd linked (nowhere last)
    · refine ⟨before, field, after, reached, split, linked, unmapped, fun tail => ?_⟩
      rw [runPostProcessors_append, stopped, runPostProcessors_unknown tail rfl]
  · have readers : InvertsEncoders api.bytes.image (fun a n => readCstring api.bytes a n)
        (fun a n => readWstring api.bytes a n) := scans_invert
    rw [runPostProcessors_append, linked.run pointer, runPostProcessors_append,
      linked.run pointer]
    exact derefText_pointer readers (port api) (addressOf_arrival linked pointer) named

/-! ### Two structures and a text -/

namespace LinkedText

def bytes : List (Int × UInt8) :=
  [(0x404004, 0x10), (0x404005, 0x40), (0x404006, 0x40), (0x404007, 0),
    (0x404010, 0x20), (0x404011, 0x40), (0x404012, 0x40), (0x404013, 0),
    (0x404020, 0x68), (0x404021, 0x69), (0x404022, 0)]

def api : IdaApi :=
  { DatabaseLoop.api with
    bytes := ⟨fun addr => (bytes.lookup addr).isSome, fun addr => (bytes.lookup addr).getD 0⟩ }

/-- The second word of the first structure, and the first of the one it points to. -/
def fields : List StructField := [⟨4, 4, false⟩, ⟨0, 4, false⟩]

theorem linked : Linked api.bytes.image fields 0x404000 0x404020 := by
  have first : Representable 4 false 0x404010 := by decide
  have second : Representable 4 false 0x404020 := by decide
  refine .field first ?_ (.field second ?_ (.here _))
  · unfold MemoryImage.Holds
    decide
  · unfold MemoryImage.Holds
    decide

end LinkedText

theorem structFields_lead_text : runPostProcessors (port LinkedText.api)
    (fieldChain LinkedText.api LinkedText.fields ++
      [cStringDeref (fun a n => readCstring LinkedText.api.bytes a n) 4096])
    (.concrete (.int 0x404000) .pointer) = .concrete (.str "hi") .string := by
  refine ((structFields_lead LinkedText.api rfl LinkedText.fields).2.2 0x404020 "hi" 4096
    LinkedText.linked (by decide)).1 (by decide) ?_
  unfold MemoryImage.Holds
  decide

end IDAnalysister
