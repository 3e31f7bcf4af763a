import IDAnalysister.Library.SimplePath
import IDAnalysister.Port
import Mathlib.Data.List.Induction

/-!
# Consistent functions

A function whose blocks are disjoint, tiled by instructions and linked by successor
and predecessor lists that are each other's converse, seen through a port. `Path` is
an execution path from the function's entry, given by the instructions it executes;
`LastDef` and `Unwritten` are what a search backward from a use can meet: a last
definition, or a block without predecessors.
-/

namespace IDAnalysister

/-! ## Instructions in a row -/

/-- `is` fills the addresses from the first bound up to the second. -/
inductive Tiles : Nat → List Instruction → Nat → Prop
  | nil (lo : Nat) : Tiles lo [] lo
  | cons {i : Instruction} {is : List Instruction} {hi : Nat} :
    0 < i.size → Tiles i.nextEa is hi → Tiles i.ea (i :: is) hi

instance Tiles.decidable : (lo : Nat) → (is : List Instruction) → (hi : Nat) →
    Decidable (Tiles lo is hi)
  | lo, [], hi =>
      decidable_of_iff (lo = hi) ⟨fun same => same ▸ .nil lo, fun tiles => by cases tiles; rfl⟩
  | lo, i :: is, hi =>
      have := Tiles.decidable i.nextEa is hi
      decidable_of_iff (i.ea = lo ∧ 0 < i.size ∧ Tiles i.nextEa is hi)
        ⟨fun ⟨same, positive, rest⟩ => same ▸ .cons positive rest, fun tiles => by
          cases tiles with
          | cons positive rest => exact ⟨rfl, positive, rest⟩⟩

/-- The instructions that start below an address. -/
def before (is : List Instruction) (ea : Nat) : List Instruction := is.filter (·.ea < ea)

theorem mem_of_before {is : List Instruction} {ea : Nat} {i : Instruction}
    (member : i ∈ before is ea) : i ∈ is :=
  (List.mem_filter.mp member).1

/-- Of two bounds the lower one decides. -/
theorem before_before {is : List Instruction} {lo hi : Nat} (le : lo ≤ hi) :
    before (before is hi) lo = before is lo := by
  rw [before, before, before, List.filter_filter]
  apply List.filter_congr
  intro i _
  rw [← Bool.decide_and]
  have below : (i.ea < lo ∧ i.ea < hi) ↔ i.ea < lo := by omega
  simp only [below]

/-- In a row of increasing addresses, what lies below an instruction precedes it. -/
theorem before_of_ordered {pre post : List Instruction} {i : Instruction}
    (ordered : (pre ++ i :: post).Pairwise fun i j => i.ea < j.ea) :
    before (pre ++ i :: post) i.ea = pre := by
  rw [List.pairwise_append, List.pairwise_cons] at ordered
  have front : pre.filter (·.ea < i.ea) = pre :=
    List.filter_eq_self.mpr fun j member => by
      simpa using ordered.2.2 j member i List.mem_cons_self
  have back : (i :: post).filter (·.ea < i.ea) = [] := by
    apply List.filter_eq_nil_iff.mpr
    intro j member
    rw [decide_eq_true_eq, Nat.not_lt]
    rcases List.mem_cons.mp member with rfl | later
    · exact Nat.le_refl _
    · exact (ordered.2.1.1 j later).le
  rw [before, List.filter_append, front, back, List.append_nil]

namespace Tiles

variable {lo hi : Nat} {is xs ys : List Instruction} {i j : Instruction}

/-- Tiles go upwards. -/
theorem le (tiles : Tiles lo is hi) : lo ≤ hi := by
  induction tiles with
  | nil => exact Nat.le_refl _
  | @cons i is hi positive _ ih =>
      simp only [Instruction.nextEa] at ih
      omega

/-- A tiled instruction starts within the bounds. -/
theorem bounds (tiles : Tiles lo is hi) {i : Instruction} (member : i ∈ is) :
    lo ≤ i.ea ∧ i.ea < hi := by
  induction tiles with
  | nil => cases member
  | @cons j is hi positive rest ih =>
      have le := rest.le
      simp only [Instruction.nextEa] at le ih
      rcases List.mem_cons.mp member with rfl | later
      · omega
      · have inner := ih later
        omega

/-- A tiled instruction has a size. -/
theorem ea_lt_nextEa (tiles : Tiles lo is hi) {i : Instruction} (member : i ∈ is) :
    i.ea < i.nextEa := by
  induction tiles with
  | nil => cases member
  | @cons j is hi positive _ ih =>
      rcases List.mem_cons.mp member with rfl | later
      · simpa [Instruction.nextEa] using positive
      · exact ih later

/-- Every address of the row is covered by an instruction. -/
theorem covering (tiles : Tiles lo is hi) {ea : Nat} (low : lo ≤ ea) (high : ea < hi) :
    ∃ i ∈ is, i.ea ≤ ea ∧ ea < i.nextEa := by
  induction tiles with
  | nil => omega
  | @cons i is hi positive _ ih =>
      by_cases here : ea < i.nextEa
      · exact ⟨i, List.mem_cons_self, low, here⟩
      · rcases ih (by omega) high with ⟨j, member, covers⟩
        exact ⟨j, List.mem_cons_of_mem _ member, covers⟩

/-- A stretch that is not empty has an instruction. -/
theorem ne_nil (tiles : Tiles lo is hi) (lt : lo < hi) : is ≠ [] := by
  intro empty
  subst empty
  cases tiles
  omega

/-- Tiles can be cut between any two instructions. -/
theorem append_inv (tiles : Tiles lo (xs ++ ys) hi) :
    ∃ mid, Tiles lo xs mid ∧ Tiles mid ys hi := by
  induction xs generalizing lo with
  | nil => exact ⟨lo, .nil lo, tiles⟩
  | cons i xs ih =>
      cases tiles with
      | cons positive rest =>
          obtain ⟨mid, left, right⟩ := ih rest
          exact ⟨mid, .cons positive left, right⟩

/-- The first instruction starts the stretch. -/
theorem head (tiles : Tiles lo (i :: is) hi) : lo = i.ea ∧ Tiles i.nextEa is hi := by
  generalize listed : i :: is = js at tiles
  cases tiles with
  | nil => cases listed
  | cons positive rest =>
      cases listed
      exact ⟨rfl, rest⟩

/-- The last instruction ends the stretch. -/
theorem last (tiles : Tiles lo (xs ++ [i]) hi) : i.nextEa = hi := by
  rcases tiles.append_inv with ⟨mid, -, single⟩
  have rest := single.head.2
  generalize i.nextEa = ea at rest
  cases rest
  rfl

/-- An instruction starts where the one before it ends. -/
theorem next (tiles : Tiles lo (xs ++ i :: j :: ys) hi) : i.nextEa = j.ea := by
  rcases tiles.append_inv with ⟨mid, -, rest⟩
  exact rest.head.2.head.1

/-- All tiles start before the end. -/
theorem before_end (tiles : Tiles lo is hi) : before is hi = is :=
  List.filter_eq_self.mpr fun i member => by simpa using (tiles.bounds member).2

/-- Nothing of a row lies below an address at or before its start. -/
theorem before_min (tiles : Tiles lo is hi) (ea : Nat) : before is (min hi ea) = before is ea := by
  apply List.filter_congr
  intro i member
  have below := (tiles.bounds member).2
  simp [below]

/-- Nothing starts before the beginning. -/
theorem before_eq_nil (tiles : Tiles lo is hi) {ea : Nat} (le : ea ≤ lo) : before is ea = [] := by
  apply List.filter_eq_nil_iff.mpr
  intro j member
  have bounds := tiles.bounds member
  simp only [decide_eq_true_eq]
  omega

/-- The addresses of a row increase, so what lies below an address is a prefix. -/
theorem before_extends (tiles : Tiles lo is hi) (ea : Nat) : before is ea <+: is := by
  induction tiles with
  | nil => exact List.prefix_rfl
  | @cons i is hi positive rest ih =>
      by_cases below : i.ea < ea
      · have head : before (i :: is) ea = i :: before is ea := by simp [before, below]
        rw [head]
        exact List.cons_prefix_cons.mpr ⟨rfl, ih⟩
      · have tiles := Tiles.cons positive rest
        rw [tiles.before_eq_nil (by omega)]
        exact List.nil_prefix

/-- Below an instruction of the row lie those that precede it. -/
theorem before_split {i : Instruction} (tiles : Tiles lo (xs ++ i :: ys) hi) :
    before (xs ++ i :: ys) i.ea = xs := by
  obtain ⟨mid, left, right⟩ := tiles.append_inv
  cases right with
  | cons positive rest =>
      have head : xs.filter (·.ea < i.ea) = xs :=
        List.filter_eq_self.mpr fun j member => by simpa using (left.bounds member).2
      have tail : (i :: ys).filter (·.ea < i.ea) = [] :=
        (Tiles.cons positive rest).before_eq_nil (Nat.le_refl _)
      rw [before, List.filter_append, head, tail, List.append_nil]

end Tiles

/-! ## A function seen through a port -/

/-- What it takes for the graph of the function at `funcEa` to be consistent with the
instructions that the port decodes. -/
structure ConsistentCfg (port : IdaPort) (funcEa : Nat) where
  /-- The instructions of a block. -/
  tile : BasicBlockInfo → List Instruction
  entry : BasicBlockInfo
  entry_mem : entry ∈ (buildCfg port funcEa).blocks
  entry_startEa : entry.startEa = funcEa
  nonempty : ∀ b ∈ (buildCfg port funcEa).blocks, b.startEa < b.endEa
  disjoint : ∀ b ∈ (buildCfg port funcEa).blocks, ∀ c ∈ (buildCfg port funcEa).blocks,
    b ≠ c → b.endEa ≤ c.startEa ∨ c.endEa ≤ b.startEa
  converse : ∀ b ∈ (buildCfg port funcEa).blocks, ∀ c ∈ (buildCfg port funcEa).blocks,
    c.startEa ∈ b.succStarts ↔ b.startEa ∈ c.predStarts
  tiled : ∀ b ∈ (buildCfg port funcEa).blocks, Tiles b.startEa (tile b) b.endEa
  decoded : ∀ b ∈ (buildCfg port funcEa).blocks, ∀ i ∈ tile b, port.decodeAt i.ea = some i
  /-- The heads that the port finds in a block are its instructions. -/
  heads : ∀ b ∈ (buildCfg port funcEa).blocks, ∀ ea, b.startEa ≤ ea → ea ≤ b.endEa →
    port.prevHead ea b.startEa = (before (tile b) ea).getLast?.map (·.ea)
  /-- The addresses of the blocks belong to the function. -/
  owner : ∀ b ∈ (buildCfg port funcEa).blocks, ∀ ea, b.startEa ≤ ea → ea < b.endEa →
    port.getFuncStart ea = some funcEa

namespace ConsistentCfg

variable {port : IdaPort} {funcEa : Nat} (G : ConsistentCfg port funcEa)

/-- The graph the engines build. -/
abbrev cfg (_ : ConsistentCfg port funcEa) : CfgModel := buildCfg port funcEa

variable {G} {b c p : BasicBlockInfo}

/-- A block is known by its start. -/
theorem eq_of_startEa (hb : b ∈ G.cfg.blocks) (hc : c ∈ G.cfg.blocks)
    (same : b.startEa = c.startEa) : b = c := by
  by_contra different
  have nb := G.nonempty b hb
  have nc := G.nonempty c hc
  rcases G.disjoint b hb c hc different with below | below <;> omega

/-- The lookup by start address finds the block. -/
theorem byStart_startEa (hb : b ∈ G.cfg.blocks) : G.cfg.byStart b.startEa = some b := by
  cases found : G.cfg.byStart b.startEa with
  | none =>
      have absent := List.find?_eq_none.mp found b (by simpa using hb)
      simp at absent
  | some c =>
      rw [eq_of_startEa (CfgModel.byStart_mem found) hb (CfgModel.byStart_startEa found)]

/-- The dictionary of the graph has each block under its start address, and nothing else. -/
theorem byStart_eq_some_iff {start : Nat} :
    G.cfg.byStart start = some p ↔ p ∈ G.cfg.blocks ∧ p.startEa = start := by
  constructor
  · intro found
    exact ⟨CfgModel.byStart_mem found, CfgModel.byStart_startEa found⟩
  · intro given
    rcases given with ⟨block, rfl⟩
    exact G.byStart_startEa block

/-- Predecessors are the blocks whose starts are listed. -/
theorem mem_predecessors_iff :
    p ∈ G.cfg.predecessors b ↔ p ∈ G.cfg.blocks ∧ p.startEa ∈ b.predStarts := by
  simp only [CfgModel.mem_predecessors, byStart_eq_some_iff, existsAndEq, and_true]
  exact and_comm

/-- Successors are the blocks whose starts are listed. -/
theorem mem_successors_iff :
    c ∈ G.cfg.successors b ↔ c ∈ G.cfg.blocks ∧ c.startEa ∈ b.succStarts := by
  simp only [CfgModel.mem_successors, byStart_eq_some_iff, existsAndEq, and_true]
  exact and_comm

/-- A block precedes its successors. -/
theorem mem_predecessors_of_successors (hb : b ∈ G.cfg.blocks)
    (succ : c ∈ G.cfg.successors b) : b ∈ G.cfg.predecessors c := by
  obtain ⟨hc, listed⟩ := G.mem_successors_iff.mp succ
  exact G.mem_predecessors_iff.mpr ⟨hb, (G.converse b hb c hc).mp listed⟩

/-- A block succeeds its predecessors. -/
theorem mem_successors_of_predecessors (hc : c ∈ G.cfg.blocks)
    (pred : b ∈ G.cfg.predecessors c) : c ∈ G.cfg.successors b := by
  obtain ⟨hb, listed⟩ := G.mem_predecessors_iff.mp pred
  exact G.mem_successors_iff.mpr ⟨hc, (G.converse b hb c hc).mpr listed⟩

/-- An address inside a block is found in that block. -/
theorem blockContaining_eq (hb : b ∈ G.cfg.blocks) {ea : Nat} (lo : b.startEa ≤ ea)
    (hi : ea < b.endEa) : G.cfg.blockContaining ea = some b := by
  cases found : G.cfg.blockContaining ea with
  | none =>
      have outside := List.find?_eq_none.mp found b hb
      simp only [decide_eq_true_eq] at outside
      exact (outside ⟨lo, hi⟩).elim
  | some c =>
      have hc := List.mem_of_find?_eq_some found
      have inside := List.find?_some found
      simp only [decide_eq_true_eq] at inside
      by_cases same : b = c
      · rw [same]
      · rcases G.disjoint b hb c hc same with below | below <;> omega

/-- All instructions of a block start before its end. -/
theorem before_endEa (hb : b ∈ G.cfg.blocks) : before (G.tile b) b.endEa = G.tile b :=
  (G.tiled b hb).before_end

theorem before_split (hb : b ∈ G.cfg.blocks) {pre post : List Instruction} {i : Instruction}
    (split : G.tile b = pre ++ i :: post) : before (G.tile b) i.ea = pre := by
  have tiles := G.tiled b hb
  rw [split] at tiles ⊢
  exact tiles.before_split

/-! ## Execution paths -/

variable (G)

/-- `Path b π`: an execution from the entry executes `π` before it enters `b`. -/
inductive Path : BasicBlockInfo → List Instruction → Prop
  | entry : Path G.entry []
  | step {b c : BasicBlockInfo} {π : List Instruction} :
    Path b π → c ∈ G.cfg.successors b → Path c (π ++ G.tile b)

/-- `PathTo ea π`: an execution from the entry executes `π` before it reaches `ea`. -/
inductive PathTo (ea : Nat) : List Instruction → Prop
  | intro {b : BasicBlockInfo} {π : List Instruction} :
    G.Path b π → b.startEa ≤ ea → ea < b.endEa → PathTo ea (π ++ before (G.tile b) ea)

/-! ## What a search backward can meet -/

/-- Walking backward from `boundary` in a block, `i` is the first instruction in `D`
that is met along some path. -/
inductive LastDef (D : Instruction → Prop) : Nat → BasicBlockInfo → Instruction → Prop
  | here {boundary : Nat} {b : BasicBlockInfo} {pre post : List Instruction} {i : Instruction} :
    before (G.tile b) boundary = pre ++ i :: post → D i → (∀ j ∈ post, ¬ D j) →
    LastDef D boundary b i
  | back {boundary : Nat} {b p : BasicBlockInfo} {i : Instruction} :
    (∀ j ∈ before (G.tile b) boundary, ¬ D j) → p ∈ G.cfg.predecessors b →
    LastDef D p.endEa p i → LastDef D boundary b i

/-- Walking backward from `boundary` in a block, some path meets no instruction in `D`
before it ends in a block without predecessors. -/
inductive Unwritten (D : Instruction → Prop) : Nat → BasicBlockInfo → Prop
  | here {boundary : Nat} {b : BasicBlockInfo} :
    (∀ j ∈ before (G.tile b) boundary, ¬ D j) → G.cfg.predecessors b = [] →
    Unwritten D boundary b
  | back {boundary : Nat} {b p : BasicBlockInfo} :
    (∀ j ∈ before (G.tile b) boundary, ¬ D j) → p ∈ G.cfg.predecessors b →
    Unwritten D p.endEa p → Unwritten D boundary b

variable {G} {D : Instruction → Prop} {π : List Instruction}

/-- A path ends at a block of the graph. -/
theorem Path.mem_blocks (path : G.Path b π) : b ∈ G.cfg.blocks := by
  cases path with
  | entry => exact G.entry_mem
  | step _ succ => exact (G.mem_successors_iff.mp succ).1

/-- Every instruction on a path is one of a block. -/
theorem Path.mem_tile (path : G.Path b π) {i : Instruction} (member : i ∈ π) :
    ∃ c ∈ G.cfg.blocks, i ∈ G.tile c := by
  induction path with
  | entry => cases member
  | step path _ ih =>
      rcases List.mem_append.mp member with early | late
      · exact ih early
      · exact ⟨_, path.mem_blocks, late⟩

/-- So is every instruction on a path to an address. -/
theorem PathTo.mem_tile {ea : Nat} (path : G.PathTo ea π) {i : Instruction} (member : i ∈ π) :
    ∃ c ∈ G.cfg.blocks, i ∈ G.tile c := by
  obtain ⟨toBlock, -, -⟩ := path
  rcases List.mem_append.mp member with early | late
  · exact toBlock.mem_tile early
  · exact ⟨_, toBlock.mem_blocks, mem_of_before late⟩

section Cut

variable {π₁ mid : List Instruction} {i x : Instruction} {ea : Nat}

/-- A path to a block leads on to each of its instructions. -/
theorem Path.reaches {pre post : List Instruction} (path : G.Path b π) (hb : b ∈ G.cfg.blocks)
    (split : G.tile b = pre ++ i :: post) : G.PathTo i.ea (π ++ pre) := by
  have bounds := (G.tiled b hb).bounds (i := i) (by simp [split])
  have reached := PathTo.intro path bounds.1 bounds.2
  rwa [G.before_split hb split] at reached

/-- The part of a path before one of its instructions leads to that instruction. -/
theorem Path.cut (path : G.Path b π) (split : π = π₁ ++ x :: mid) : G.PathTo x.ea π₁ := by
  induction path generalizing mid with
  | entry => simp at split
  | @step b c π path _ ih =>
      rcases List.append_eq_append_iff.mp split with ⟨pre, rfl, here⟩ | ⟨post, early, late⟩
      · exact path.reaches path.mem_blocks here
      · cases post with
        | nil =>
            rw [List.append_nil] at early
            have whole : G.PathTo x.ea (π ++ []) := path.reaches path.mem_blocks late.symm
            rwa [List.append_nil, early] at whole
        | cons y post =>
            cases late
            exact ih early

/-- What was executed before any instruction of a path led to it. -/
theorem PathTo.cut (path : G.PathTo ea (π₁ ++ x :: mid)) : G.PathTo x.ea π₁ := by
  generalize whole : π₁ ++ x :: mid = π at path
  cases path with
  | @intro b π path low high =>
      rcases G.tiled b path.mem_blocks |>.before_extends ea with ⟨rest, extends'⟩
      rcases List.append_eq_append_iff.mp whole with ⟨post, early, late⟩ | ⟨pre, rfl, here⟩
      · cases post with
        | nil =>
            rw [List.append_nil] at early
            rw [List.nil_append] at late
            rw [← late] at extends'
            have reached : G.PathTo x.ea (π ++ []) := path.reaches path.mem_blocks extends'.symm
            rwa [List.append_nil, early] at reached
        | cons y post =>
            cases late
            exact path.cut early
      · rw [here, List.append_assoc] at extends'
        exact path.reaches path.mem_blocks extends'.symm

/-! ## One instruction of a path -/

variable (G) in
/-- A block that does not end in a control transfer goes on to the block behind it. -/
def FallsThrough : Prop :=
  ∀ b ∈ G.cfg.blocks, ∀ pre i, G.tile b = pre ++ [i] → i.isControlTransfer = false →
    ∃ c ∈ G.cfg.successors b, c.startEa = b.endEa

/-- An address lies in one block only. -/
theorem eq_of_inside (hb : b ∈ G.cfg.blocks) (hc : c ∈ G.cfg.blocks) (lowB : b.startEa ≤ ea)
    (highB : ea < b.endEa) (lowC : c.startEa ≤ ea) (highC : ea < c.endEa) : b = c := by
  by_contra different
  rcases G.disjoint b hb c hc different with below | below <;> omega

/-- A path to an address ends in the block that has it. -/
theorem PathTo.block (path : G.PathTo ea π) :
    ∃ b ∈ G.cfg.blocks, b.startEa ≤ ea ∧ ea < b.endEa := by
  cases path with
  | intro path low high => exact ⟨_, path.mem_blocks, low, high⟩

/-- What led to an instruction of a block led to the block, and to the instruction in it. -/
theorem PathTo.enter {pre post : List Instruction} (hb : b ∈ G.cfg.blocks)
    (split : G.tile b = pre ++ i :: post) (path : G.PathTo i.ea π) :
    ∃ π', G.Path b π' ∧ π = π' ++ pre := by
  generalize start : i.ea = ea at path
  cases path with
  | @intro b' π path low high =>
      subst start
      have bounds := (G.tiled b hb).bounds (i := i) (by simp [split])
      obtain rfl := G.eq_of_inside hb path.mem_blocks bounds.1 bounds.2 low high
      exact ⟨π, path, by rw [G.before_split hb split]⟩

/-- From an instruction that transfers no control, execution goes on to the next address. -/
theorem PathTo.advance (falls : G.FallsThrough) (hb : b ∈ G.cfg.blocks) (member : i ∈ G.tile b)
    (straight : i.isControlTransfer = false) (path : G.PathTo i.ea π) :
    G.PathTo i.nextEa (π ++ [i]) ∧ ∃ c ∈ G.cfg.blocks, ∃ j ∈ G.tile c, j.ea = i.nextEa := by
  rcases List.append_of_mem member with ⟨pre, post, split⟩
  rcases path.enter hb split with ⟨π', path', rfl⟩
  have tiles := G.tiled b hb
  rw [split] at tiles
  rw [List.append_assoc]
  cases post with
  | nil =>
      rcases falls b hb pre i split straight with ⟨c, succ, next⟩
      have hc := (G.mem_successors_iff.mp succ).1
      have last : i.nextEa = b.endEa := tiles.last
      have entered := PathTo.intro (path'.step succ) (Nat.le_refl _) (G.nonempty c hc)
      rw [(G.tiled c hc).before_eq_nil (Nat.le_refl _), List.append_nil, split] at entered
      rw [last, ← next]
      refine ⟨entered, c, hc, ?_⟩
      rcases (G.tiled c hc).covering (Nat.le_refl _) (G.nonempty c hc) with ⟨j, inside, le, -⟩
      exact ⟨j, inside, le.antisymm ((G.tiled c hc).bounds inside).1⟩
  | cons j post =>
      have split' : G.tile b = (pre ++ [i]) ++ j :: post := by simp [split]
      have next : i.nextEa = j.ea := tiles.next
      rw [next]
      exact ⟨path'.reaches hb split', b, hb, j, by simp [split], rfl⟩

/-- An instruction is reached at the start of the function, from the one that ends where it
begins, or by a jump. -/
theorem PathTo.retreat (hb : b ∈ G.cfg.blocks) (member : i ∈ G.tile b) (path : G.PathTo i.ea π) :
    i.ea = funcEa ∨
      (∃ c ∈ G.cfg.blocks, ∃ w ∈ G.tile c, ∃ π', w.nextEa = i.ea ∧ π = π' ++ [w] ∧
        G.PathTo w.ea π') ∨
      ∃ p c π', G.Path p π' ∧ c ∈ G.cfg.successors p ∧ c.startEa = i.ea ∧ p.endEa ≠ i.ea ∧
        π = π' ++ G.tile p := by
  rcases List.append_of_mem member with ⟨pre, post, split⟩
  rcases path.enter hb split with ⟨π', path', rfl⟩
  have tiles := G.tiled b hb
  rw [split] at tiles
  cases pre using List.reverseRecOn with
  | nil =>
      have first : b.startEa = i.ea := tiles.head.1
      cases path' with
      | entry => exact Or.inl (first.symm.trans G.entry_startEa)
      | @step p _ π' path' succ =>
          by_cases behind : p.endEa = i.ea
          · have hp := path'.mem_blocks
            have tiles' := G.tiled p hp
            generalize whole : G.tile p = row at tiles'
            cases row using List.reverseRecOn with
            | nil => exact (tiles'.ne_nil (G.nonempty p hp) rfl).elim
            | append_singleton early w _ =>
                exact Or.inr (Or.inl ⟨p, hp, w, by simp [whole], π' ++ early,
                  tiles'.last.trans behind, by simp, path'.reaches hp whole⟩)
          · exact Or.inr (Or.inr ⟨p, b, π', path', succ, first, behind, by simp⟩)
  | append_singleton early w _ =>
      rw [List.append_assoc, List.singleton_append] at split tiles
      exact Or.inr (Or.inl ⟨b, hb, w, by simp [split], π' ++ early, tiles.next, by simp,
        path'.reaches hb split⟩)

end Cut

/-- The last element of a list that satisfies a predicate. -/
theorem exists_last {α : Type} (D : α → Prop) (is : List α) :
    (∀ i ∈ is, ¬ D i) ∨ ∃ pre i post, is = pre ++ i :: post ∧ D i ∧ ∀ j ∈ post, ¬ D j := by
  induction is with
  | nil => exact Or.inl (by simp)
  | cons i is ih =>
      rcases ih with clear | ⟨pre, k, post, rfl, holds, clear⟩
      · by_cases holds : D i
        · exact Or.inr ⟨[], i, is, rfl, holds, clear⟩
        · exact Or.inl (by simpa [holds] using clear)
      · exact Or.inr ⟨i :: pre, k, post, rfl, holds, clear⟩

/-- A path meets no instruction in `D`, or has a last one, which a search backward
from the predecessors of its end finds. -/
theorem Path.last (D : Instruction → Prop) (path : G.Path c π) :
    (∀ i ∈ π, ¬ D i) ∨
      ∃ (b q : BasicBlockInfo) (π₁ pre post rest : List Instruction) (i : Instruction),
        G.Path b π₁ ∧ G.tile b = pre ++ i :: post ∧ D i ∧
          π = π₁ ++ (pre ++ i :: (post ++ rest)) ∧ (∀ j ∈ post ++ rest, ¬ D j) ∧
          q ∈ G.cfg.predecessors c ∧ G.LastDef D q.endEa q i := by
  induction path with
  | entry => exact Or.inl (by simp)
  | @step b c π path succ ih =>
      have hb := path.mem_blocks
      have pred := G.mem_predecessors_of_successors hb succ
      rcases exists_last D (G.tile b) with clear | ⟨pre, i, post, split, holds, clear⟩
      · rcases ih with none |
          ⟨b₁, q, π₁, pre, post, rest, i, path₁, split, holds, rfl, after, hq, last⟩
        · refine Or.inl fun i member => ?_
          rcases List.mem_append.mp member with early | late
          · exact none i early
          · exact clear i late
        · refine Or.inr ⟨b₁, b, π₁, pre, post, rest ++ G.tile b, i, path₁, split, holds, by simp,
            fun j member => ?_, pred, .back ?_ hq last⟩
          · rw [← List.append_assoc] at member
            rcases List.mem_append.mp member with early | late
            · exact after j early
            · exact clear j late
          · rwa [G.before_endEa hb]
      · have whole : before (G.tile b) b.endEa = pre ++ i :: post := by
          rw [G.before_endEa hb, split]
        exact Or.inr ⟨b, b, π, pre, post, [], i, path, split, holds, by simp [split],
          by simpa using clear, pred, .here whole holds clear⟩

/-- A path without an instruction in `D` shows that the search can end at the entry,
when the entry has no predecessor. -/
theorem Path.unwritten (source : G.cfg.predecessors G.entry = []) (path : G.Path b π)
    (clear : ∀ i ∈ π, ¬ D i) {boundary : Nat}
    (here : ∀ i ∈ before (G.tile b) boundary, ¬ D i) : G.Unwritten D boundary b := by
  induction path generalizing boundary with
  | entry => exact .here here source
  | @step b c π path succ ih =>
      have hb := path.mem_blocks
      have tileClear : ∀ i ∈ before (G.tile b) b.endEa, ¬ D i := by
        rw [G.before_endEa hb]
        exact fun i member => clear i (by simp [member])
      exact .back here (G.mem_predecessors_of_successors hb succ)
        (ih (fun i member => clear i (by simp [member])) tileClear)

/-- A path to a use meets no instruction in `D`, or has a last one, which is what a search
backward from the use finds. -/
theorem PathTo.last (D : Instruction → Prop) (source : G.cfg.predecessors G.entry = [])
    {ea : Nat} (path : G.PathTo ea π) : ∃ b ∈ G.cfg.blocks, b.startEa ≤ ea ∧ ea < b.endEa ∧
      ((∀ j ∈ π, ¬ D j) ∧ G.Unwritten D ea b ∨
        ∃ pre i post, π = pre ++ i :: post ∧ D i ∧ (∀ j ∈ post, ¬ D j) ∧ G.LastDef D ea b i) := by
  obtain ⟨toBlock, lo, hi⟩ := path
  rename_i b π
  refine ⟨b, toBlock.mem_blocks, lo, hi, ?_⟩
  rcases exists_last D (before (G.tile b) ea) with clear | ⟨pre, i, post, split, defines, clear⟩
  · rcases toBlock.last D with
      none | ⟨b₁, q, π₁, pre, post, rest, i, -, -, defines, rfl, after, hq, last⟩
    · refine Or.inl ⟨fun j member => ?_, toBlock.unwritten source none clear⟩
      rcases List.mem_append.mp member with early | late
      · exact none j early
      · exact clear j late
    · refine Or.inr ⟨π₁ ++ pre, i, post ++ rest ++ before (G.tile b) ea, by simp, defines, ?_,
        .back clear hq last⟩
      intro j member
      rcases List.mem_append.mp member with early | late
      · exact after j early
      · exact clear j late
  · exact Or.inr ⟨π ++ pre, i, post, by rw [split, List.append_assoc], defines, clear,
      .here split defines clear⟩

section Congr

variable {E : Instruction → Prop} {boundary : Nat}

/-- A stretch that is clear of one kind of definition is clear of any that agrees with it. -/
theorem clear_congr (same : ∀ c ∈ G.cfg.blocks, ∀ j ∈ G.tile c, (D j ↔ E j))
    (hb : b ∈ G.cfg.blocks) (clear : ∀ j ∈ before (G.tile b) boundary, ¬ D j) :
    ∀ j ∈ before (G.tile b) boundary, ¬ E j :=
  fun j member writes => clear j member ((same b hb j (mem_of_before member)).mpr writes)

/-- What a search can meet depends on `D` only for the instructions of the function. -/
theorem LastDef.congr {i : Instruction} (same : ∀ c ∈ G.cfg.blocks, ∀ j ∈ G.tile c, (D j ↔ E j))
    (hb : b ∈ G.cfg.blocks) (last : G.LastDef D boundary b i) : G.LastDef E boundary b i := by
  induction last with
  | @here boundary b pre post i split holds clear =>
      have inside : ∀ j ∈ i :: post, j ∈ G.tile b := by
        intro j member
        have met : j ∈ before (G.tile b) boundary := by
          rw [split]
          exact List.mem_append_right pre member
        exact mem_of_before met
      refine .here split ((same b hb i (inside i (by simp))).mp holds) fun j member => ?_
      exact fun writes => clear j member ((same b hb j (inside j (by simp [member]))).mpr writes)
  | back clear pred _ ih =>
      exact .back (clear_congr same hb clear) pred (ih (G.mem_predecessors_iff.mp pred).1)

/-- Being unwritten depends only on which instructions of the blocks define. -/
theorem Unwritten.congr (same : ∀ c ∈ G.cfg.blocks, ∀ j ∈ G.tile c, (D j ↔ E j))
    (hb : b ∈ G.cfg.blocks) (open' : G.Unwritten D boundary b) : G.Unwritten E boundary b := by
  induction open' with
  | here clear source => exact .here (clear_congr same hb clear) source
  | back clear pred _ ih =>
      exact .back (clear_congr same hb clear) pred (ih (G.mem_predecessors_iff.mp pred).1)

end Congr

/-- Every instruction a search can meet belongs to the function. -/
theorem LastDef.mem_tile {boundary : Nat} {i : Instruction} (hb : b ∈ G.cfg.blocks)
    (last : G.LastDef D boundary b i) : ∃ c ∈ G.cfg.blocks, i ∈ G.tile c ∧ D i := by
  induction last with
  | @here boundary b _ _ i split holds _ =>
      have inside : i ∈ before (G.tile b) boundary := by simp [split]
      exact ⟨b, hb, mem_of_before inside, holds⟩
  | back _ pred _ ih => exact ih (G.mem_predecessors_iff.mp pred).1

/-! ## Cutting a search down to a simple path -/

variable (G) (D)

/-- An edge into `y` from a block without an instruction in `D`, by start addresses. -/
def ClearEdge (x y : Nat) : Prop :=
  ∃ p b : BasicBlockInfo, p.startEa = x ∧ b.startEa = y ∧ b ∈ G.cfg.blocks ∧
    p ∈ G.cfg.predecessors b ∧ ∀ j ∈ G.tile p, ¬ D j

variable {G} {D}

/-- A last definition stands in the block itself, or in a predecessor of a block from
which a simple path of clear blocks leads here. -/
theorem LastDef.simple {boundary : Nat} {i : Instruction} (hb : b ∈ G.cfg.blocks)
    (last : G.LastDef D boundary b i) :
    (∃ pre post, before (G.tile b) boundary = pre ++ i :: post ∧ D i ∧ ∀ j ∈ post, ¬ D j) ∨
      (∀ j ∈ before (G.tile b) boundary, ¬ D j) ∧
        ∃ c ∈ G.cfg.blocks, SearchPath.Simple (G.ClearEdge D) ∅ c.startEa b.startEa ∧
          ∃ p ∈ G.cfg.predecessors c, ∃ pre post,
            G.tile p = pre ++ i :: post ∧ D i ∧ ∀ j ∈ post, ¬ D j := by
  have reach : (∃ pre post, before (G.tile b) boundary = pre ++ i :: post ∧ D i ∧
      ∀ j ∈ post, ¬ D j) ∨
      (∀ j ∈ before (G.tile b) boundary, ¬ D j) ∧
        ∃ c ∈ G.cfg.blocks, Relation.ReflTransGen (G.ClearEdge D) c.startEa b.startEa ∧
          ∃ p ∈ G.cfg.predecessors c, ∃ pre post,
            G.tile p = pre ++ i :: post ∧ D i ∧ ∀ j ∈ post, ¬ D j := by
    induction last with
    | here split holds clear => exact Or.inl ⟨_, _, split, holds, clear⟩
    | @back boundary b p i clear pred _ ih =>
        have hp := (G.mem_predecessors_iff.mp pred).1
        rw [G.before_endEa hp] at ih
        rcases ih hp with ⟨pre, post, split, holds, after⟩ | ⟨pClear, c, hc, steps, found⟩
        · exact Or.inr ⟨clear, b, hb, .refl, p, pred, pre, post, split, holds, after⟩
        · exact Or.inr ⟨clear, c, hc, steps.tail ⟨p, b, rfl, rfl, hb, pred, pClear⟩, found⟩
  rcases reach with here | ⟨clear, c, hc, steps, found⟩
  · exact Or.inl here
  · exact Or.inr ⟨clear, c, hc, .of_reflTransGen steps, found⟩

/-- What is unwritten is so along a path that enters no block twice. -/
theorem Unwritten.simple {boundary : Nat} (hb : b ∈ G.cfg.blocks)
    (open' : G.Unwritten D boundary b) :
    (∀ j ∈ before (G.tile b) boundary, ¬ D j) ∧
      ∃ c ∈ G.cfg.blocks, SearchPath.Simple (G.ClearEdge D) ∅ c.startEa b.startEa ∧
        G.cfg.predecessors c = [] := by
  have reach : (∀ j ∈ before (G.tile b) boundary, ¬ D j) ∧
      ∃ c ∈ G.cfg.blocks, Relation.ReflTransGen (G.ClearEdge D) c.startEa b.startEa ∧
        G.cfg.predecessors c = [] := by
    induction open' with
    | @here boundary b clear source => exact ⟨clear, b, hb, .refl, source⟩
    | @back boundary b p clear pred _ ih =>
        have hp := (G.mem_predecessors_iff.mp pred).1
        rw [G.before_endEa hp] at ih
        obtain ⟨pClear, c, hc, steps, source⟩ := ih hp
        exact ⟨clear, c, hc, steps.tail ⟨p, b, rfl, rfl, hb, pred, pClear⟩, source⟩
  obtain ⟨clear, c, hc, steps, source⟩ := reach
  exact ⟨clear, c, hc, .of_reflTransGen steps, source⟩

end ConsistentCfg

end IDAnalysister
