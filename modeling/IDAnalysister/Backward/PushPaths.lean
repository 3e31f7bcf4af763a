import IDAnalysister.Adapters.FakePort
import IDAnalysister.Backward.Pushes

/-!
# Collected pushes along paths

`collect_push_sequence` reads the listing of a function backward from a call. It stops
at control transfers but never asks whether a jump leads to where it is reading, so what it
takes need not have been executed. `collected_on_every_path_iff` says which jumps may
lead into the row that it gets through.
-/

namespace IDAnalysister

open Effect Prog

/-! ## Listings -/

/-- The heads that the port lists from the start of the function up to a call in it. -/
structure Listed {port : IdaPort} {funcEa : Nat} (G : ConsistentCfg port funcEa)
    (row : List Instruction) (call : Instruction) : Prop where
  ordered : (row ++ [call]).Pairwise fun i j => i.ea < j.ea ∧ i.nextEa ≤ j.ea
  low : ∀ i ∈ row, funcEa ≤ i.ea
  decoded : ∀ i ∈ row, port.decodeAt i.ea = some i
  last : port.prevHead call.ea funcEa = row.getLast?.map (·.ea)
  heads : ∀ i ∈ row, port.prevHead i.ea funcEa = (before row i.ea).getLast?.map (·.ea)
  /-- No instruction of the function is missing. -/
  complete : ∀ b ∈ G.cfg.blocks, ∀ i ∈ G.tile b, funcEa ≤ i.ea → i.ea < call.ea → i ∈ row
  inside : ∃ b ∈ G.cfg.blocks, call ∈ G.tile b
  /-- A push is no jump. -/
  plain : ∀ i ∈ row, i.mnem = "push" → i.isControlTransfer = false

/-- The last push of what was executed is `x`. -/
def LastPush (x : Instruction) (π : List Instruction) : Prop :=
  x.mnem = "push" ∧ ∃ early late, π = early ++ x :: late ∧ ∀ j ∈ late, j.mnem ≠ "push"

/-- Every jump that leads into the row the scan gets through, behind a push `x` of it and
before the next one, is reached only by executions whose last push is `x`. -/
def JumpsBringThePush {port : IdaPort} {funcEa : Nat} (G : ConsistentCfg port funcEa)
    (row : List Instruction) (call : Instruction) : Prop :=
  ∀ pre x between rest, row = pre ++ x :: (between ++ rest) → x.mnem = "push" →
    (∀ j ∈ between, j.mnem ≠ "push") →
    Scannable port.stackPointerReg (x :: (between ++ rest)) →
    ∀ p c π, G.Path p π → c ∈ G.cfg.successors p → p.endEa ≠ c.startEa →
      (rest.head?.getD call).ea = c.startEa → LastPush x (π ++ G.tile p)

namespace Listed

variable {port : IdaPort} {funcEa : Nat} {G : ConsistentCfg port funcEa}
variable {row pre post : List Instruction} {call i j z : Instruction} {b : BasicBlockInfo}

theorem around (listed : Listed G row call) (split : row ++ [call] = pre ++ z :: post) :
    (∀ i ∈ pre, i.ea < z.ea ∧ i.nextEa ≤ z.ea) ∧ ∀ i ∈ post, z.ea < i.ea ∧ z.nextEa ≤ i.ea := by
  have ordered := listed.ordered
  rw [split, List.pairwise_append, List.pairwise_cons] at ordered
  exact ⟨fun i member => ordered.2.2 i member z List.mem_cons_self, ordered.2.1.1⟩

theorem call_around (listed : Listed G row call) : ∀ i ∈ row, i.ea < call.ea ∧ i.nextEa ≤ call.ea :=
  (listed.around rfl).1

theorem le_call (listed : Listed G row call) (member : z ∈ row ++ [call]) : z.ea ≤ call.ea := by
  rcases List.mem_append.mp member with inside | last
  · exact (listed.call_around z inside).1.le
  · rw [List.mem_singleton.mp last]

/-- A listed instruction ends before a head, is this head, or starts behind it. -/
theorem apart (listed : Listed G row call) (split : row ++ [call] = pre ++ z :: post)
    (member : j ∈ row) :
    (j.ea < z.ea ∧ j.nextEa ≤ z.ea) ∨ j = z ∨ j ∈ post ∧ z.ea < j.ea ∧ z.nextEa ≤ j.ea := by
  have around := listed.around split
  have here : j ∈ pre ++ z :: post := by
    rw [← split]
    exact List.mem_append_left _ member
  rcases List.mem_append.mp here with earlier | from'
  · exact Or.inl (around.1 j earlier)
  · rcases List.mem_cons.mp from' with same | later
    · exact Or.inr (Or.inl same)
    · exact Or.inr (Or.inr ⟨later, around.2 j later⟩)

/-- Between two neighbouring heads nothing is listed. -/
theorem neighbours (listed : Listed G row call) (split : row ++ [call] = pre ++ i :: z :: post)
    (member : j ∈ row) :
    (j.ea < i.ea ∧ j.nextEa ≤ i.ea) ∨ j = i ∨ j = z ∨ z.ea < j.ea ∧ z.nextEa ≤ j.ea := by
  rcases listed.apart split member with earlier | same | ⟨later, -⟩
  · exact Or.inl earlier
  · exact Or.inr (Or.inl same)
  · have split' : row ++ [call] = (pre ++ [i]) ++ z :: post := by simp [split]
    rcases List.mem_cons.mp later with same | beyond
    · exact Or.inr (Or.inr (Or.inl same))
    · exact Or.inr (Or.inr (Or.inr ((listed.around split').2 j beyond)))

/-- The addresses of the function above its start belong to blocks above its start. -/
theorem low_block (hb : b ∈ G.cfg.blocks) (above : funcEa < b.endEa) : funcEa ≤ b.startEa := by
  have start := G.entry_startEa
  by_cases same : b = G.entry
  · rw [same, start]
  · have positive := G.nonempty G.entry G.entry_mem
    rcases G.disjoint b hb G.entry G.entry_mem same with below | below <;> omega

/-- What the graph has at the address of a head is this head. -/
theorem mem_tile (listed : Listed G row call) (member : z ∈ row ++ [call]) (hb : b ∈ G.cfg.blocks)
    (above : funcEa ≤ z.ea) (low : b.startEa ≤ z.ea) (high : z.ea < b.endEa) : z ∈ G.tile b := by
  have start := low_block hb (above.trans_lt high)
  rcases (G.tiled b hb).covering low high with ⟨i, inside, le, lt⟩
  have bounds := (G.tiled b hb).bounds inside
  have last := listed.le_call member
  by_cases early : i.ea < call.ea
  · have listed' := listed.complete b hb i inside (start.trans bounds.1) early
    rcases List.append_of_mem member with ⟨pre, post, split⟩
    rcases listed.apart split listed' with earlier | rfl | ⟨-, later⟩
    · omega
    · exact inside
    · omega
  · have same : z.ea = call.ea := by omega
    rcases List.mem_append.mp member with earlier | equal
    · have bound := (listed.call_around z earlier).1
      omega
    · obtain rfl := List.mem_singleton.mp equal
      rcases listed.inside with ⟨c, hc, home⟩
      have bounds' := (G.tiled c hc).bounds home
      rwa [G.eq_of_inside hb hc low high bounds'.1 bounds'.2]

/-- An instruction of the function that ends at a head is the one listed before it. -/
theorem eq_previous (listed : Listed G row call) (split : row ++ [call] = pre ++ i :: z :: post)
    (hb : b ∈ G.cfg.blocks) (member : j ∈ G.tile b) (ends : j.nextEa = z.ea) : j = i := by
  have here : i ∈ row ++ [call] := by simp [split]
  have there : z ∈ row ++ [call] := by simp [split]
  have next := (listed.around split).2 z List.mem_cons_self
  have last := listed.le_call there
  have inRow : i ∈ row := by
    rcases List.mem_append.mp here with inside | equal
    · exact inside
    · rw [List.mem_singleton.mp equal] at next
      omega
  have low := listed.low i inRow
  have positive := (G.tiled b hb).ea_lt_nextEa member
  have bounds := (G.tiled b hb).bounds member
  have high : j.nextEa ≤ b.endEa := by
    rcases List.append_of_mem member with ⟨early, late, whole⟩
    have tiles := G.tiled b hb
    rw [whole] at tiles
    rcases tiles.append_inv with ⟨mid, -, rest⟩
    exact rest.head.2.le
  have start := low_block hb (b := b) (by omega)
  have listed' := listed.complete b hb j member (by omega) (by omega)
  rcases listed.neighbours split listed' with earlier | same | rfl | beyond
  · omega
  · exact same
  · omega
  · omega

/-- An instruction of the function that starts where a head ends is the one listed behind it. -/
theorem next_ea (listed : Listed G row call) (split : row ++ [call] = pre ++ i :: z :: post)
    (low : funcEa ≤ i.ea) (hb : b ∈ G.cfg.blocks) (member : j ∈ G.tile b)
    (starts : j.ea = i.nextEa) : z.ea = i.nextEa := by
  have next := (listed.around split).2 z List.mem_cons_self
  have last := listed.le_call (z := z) (by simp [split])
  have positive := (G.tiled b hb).ea_lt_nextEa member
  have above : i.ea ≤ i.nextEa := Nat.le_add_right _ _
  by_cases early : j.ea < call.ea
  · have listed' := listed.complete b hb j member (by omega) early
    rcases listed.neighbours split listed' with earlier | rfl | rfl | beyond
    · omega
    · omega
    · exact starts
    · omega
  · omega

/-- The heads of the row below one of them are those in front of it. -/
theorem before_head (listed : Listed G row call) (split : row = pre ++ i :: post) :
    before row i.ea = pre := by
  have ordered : row.Pairwise fun i j => i.ea < j.ea :=
    (List.pairwise_append.mp listed.ordered).1.imp fun both => both.1
  rw [split] at ordered ⊢
  exact before_of_ordered ordered

theorem headsBefore (listed : Listed G row call) : HeadsBefore port funcEa call.ea row := by
  rcases listed.inside with ⟨b, hb, member⟩
  have bounds := (G.tiled b hb).bounds member
  constructor
  · exact G.owner b hb call.ea bounds.1 bounds.2
  · exact listed.last
  · intro pre i post split
    rw [listed.heads i (by simp [split]), listed.before_head split]
  · exact listed.decoded

/-! ## Along a path -/

variable {x : Instruction} {run between rest π : List Instruction} {sp : Option Nat}

theorem straight (listed : Listed G row call) (member : i ∈ row)
    (passes : i.mnem = "push" ∨ isTransparentToPushSequence i sp) :
    i.isControlTransfer = false := by
  rcases passes with push | transparent
  · exact listed.plain i member push
  · unfold isTransparentToPushSequence at transparent
    cases flag : i.isControlTransfer with
    | true =>
        rw [flag, if_pos rfl] at transparent
        cases transparent
    | false => rfl

/-- From any of its heads, execution runs through a row that the scan gets through. -/
theorem runs_through (listed : Listed G row call) (falls : G.FallsThrough)
    (split : row = pre ++ rest) (scannable : Scannable sp rest)
    (path : G.PathTo (rest.head?.getD call).ea π) : G.PathTo call.ea (π ++ rest) := by
  induction rest generalizing pre π with
  | nil => simpa using path
  | cons i rest ih =>
      have inRow : i ∈ row := by simp [split]
      have low := listed.low i inRow
      have split' : row ++ [call] = pre ++ i :: (rest ++ [call]) := by simp [split]
      rcases path.block with ⟨b, hb, below, above⟩
      have member := listed.mem_tile (z := i) (by simp [split]) hb low below above
      rcases path.advance falls hb member (listed.straight inRow scannable.2.1) with
        ⟨further, c, hc, j, inside, starts⟩
      have next : (rest.head?.getD call).ea = i.nextEa := by
        cases rest with
        | nil => exact listed.next_ea split' low hc inside starts
        | cons z rest => exact listed.next_ea split' low hc inside starts
      rw [← next] at further
      have split'' : row = (pre ++ [i]) ++ rest := by simp [split]
      have all := ih split'' scannable.1 further
      rwa [List.append_assoc, List.singleton_append] at all

theorem split_head (pre : List Instruction) (w : Instruction) (rest : List Instruction)
    (call : Instruction) : ∃ post, (pre ++ w :: rest) ++ [call] =
      pre ++ w :: rest.head?.getD call :: post := by
  cases rest with
  | nil => exact ⟨[], by simp⟩
  | cons z rest => exact ⟨rest ++ [call], by simp⟩

/-- A head is reached from the one listed before it or by a jump. -/
theorem step_back (listed : Listed G row call) {w : Instruction} (split : row = pre ++ w :: rest)
    (path : G.PathTo (rest.head?.getD call).ea π) :
    (∃ π', π = π' ++ [w] ∧ G.PathTo w.ea π') ∨
      ∃ p c π', G.Path p π' ∧ c ∈ G.cfg.successors p ∧ p.endEa ≠ c.startEa ∧
        (rest.head?.getD call).ea = c.startEa ∧ π = π' ++ G.tile p := by
  rcases split_head pre w rest call with ⟨post, split'⟩
  rw [← split] at split'
  generalize rest.head?.getD call = z at split' path
  have next := (listed.around split').2 z List.mem_cons_self
  have low := listed.low w (by simp [split])
  rcases path.block with ⟨b, hb, below, above⟩
  have member := listed.mem_tile (by simp [split']) hb (by omega) below above
  rcases path.retreat hb member with
    first | ⟨c, hc, w', inside, π', ends, rfl, earlier⟩ | ⟨p, c, π', path', succ, here, jumped, rfl⟩
  · omega
  · obtain rfl := listed.eq_previous split' hc inside ends
    exact Or.inl ⟨π', rfl, earlier⟩
  · rw [← here] at jumped
    exact Or.inr ⟨p, c, π', path', succ, jumped, here.symm, rfl⟩

/-- Where jumps bring the push, it is the last one on every path to behind it. -/
theorem last_push (listed : Listed G row call) (jumps : JumpsBringThePush G row call)
    (split : row = pre ++ x :: (between ++ rest)) (push : x.mnem = "push")
    (other : ∀ j ∈ between, j.mnem ≠ "push")
    (scannable : Scannable port.stackPointerReg (x :: (between ++ rest)))
    (path : G.PathTo (rest.head?.getD call).ea π) : LastPush x π := by
  induction between using List.reverseRecOn generalizing rest π with
  | nil =>
      rcases listed.step_back split path with
          ⟨π', rfl, -⟩ | ⟨p, c, π', path', succ, jumped, here, rfl⟩
      · exact ⟨push, π', [], rfl, by simp⟩
      · exact jumps pre x [] rest split push other scannable p c π' path' succ jumped here
  | append_singleton between w ih =>
      have split' : row = (pre ++ x :: between) ++ w :: rest := by simp [split]
      rcases listed.step_back split' path with
        ⟨π', rfl, earlier⟩ | ⟨p, c, π', path', succ, jumped, here, rfl⟩
      · have whole : between ++ w :: rest = between ++ [w] ++ rest := by simp
        rw [← whole] at split scannable
        have before' := ih split (fun j member => other j (List.mem_append_left _ member)) scannable
          earlier
        rcases before' with ⟨-, early, late, rfl, clear⟩
        refine ⟨push, early, late ++ [w], by simp, ?_⟩
        intro j member
        rcases List.mem_append.mp member with inside | last
        · exact clear j inside
        · exact other j (List.mem_append_right _ last)
      · exact jumps pre x _ rest split push other scannable p c π' path' succ jumped here

/-- Where jumps bring the push, every path to behind a part of the row ends with its pushes. -/
theorem ends_with (listed : Listed G row call) (jumps : JumpsBringThePush G row call)
    (split : row = pre ++ (run ++ rest)) (scannable : Scannable port.stackPointerReg (run ++ rest))
    (path : G.PathTo (rest.head?.getD call).ea π) : pushesOf run <:+ pushesOf π := by
  generalize size : run.length = n
  induction n using Nat.strongRecOn generalizing run rest π with
  | ind n ih =>
      rcases ConsistentCfg.exists_last (fun i : Instruction => i.mnem = "push") run with
        none | ⟨early, x, late, rfl, push, clear⟩
      · rw [pushesOf_eq_nil none]
        exact List.nil_suffix
      · rw [List.append_assoc, List.cons_append] at split scannable
        have split' : row = (pre ++ early) ++ x :: (late ++ rest) := by simp [split]
        rcases listed.last_push jumps split' push clear scannable.of_append path with
          ⟨-, π₁, mid, rfl, clear'⟩
        have shorter : early.length < n := by
          rw [← size]
          simp
        have earlier := ih early.length shorter split scannable path.cut rfl
        rw [pushesOf_append, pushesOf_append, pushesOf_push push, pushesOf_push push,
          pushesOf_eq_nil clear, pushesOf_eq_nil clear']
        rcases earlier with ⟨more, same⟩
        exact ⟨more, by rw [← same, List.append_assoc]⟩

end Listed

/-! ## Collected pushes -/

theorem LastPush.of_pushesOf {x : Instruction} {π early : List Instruction}
    (pushes : pushesOf π = early ++ [x]) : LastPush x π := by
  rcases ConsistentCfg.exists_last (fun i : Instruction => i.mnem = "push") π with
    none | ⟨pre, y, post, rfl, push, clear⟩
  · rw [pushesOf_eq_nil none] at pushes
    simp at pushes
  · rw [pushesOf_append, pushesOf_push push, pushesOf_eq_nil clear] at pushes
    cases (List.append_inj' pushes rfl).2
    exact ⟨push, pre, post, rfl, clear⟩

/-- For every call in the function, the collected pushes are the last ones executed on every
path to it, in their order, if and only if each jump that leads between a push of the row the
scan gets through and the next one is reached only by executions whose last push is this one. -/
theorem collected_on_every_path_iff {self : BackwardResolver} {funcEa : Nat}
    (G : ConsistentCfg self.port funcEa) (falls : G.FallsThrough) {row : List Instruction}
    {call : Instruction} (listed : Listed G row call) :
    (∀ (b : ResolutionBudget) (pushes : List Nat),
      (attempt (handler self.port) none (self.collectPushSequence call.ea) b).1 = some pushes →
        ∀ π, G.PathTo call.ea π → pushes <:+ (pushesOf π).map (·.ea)) ↔
      JumpsBringThePush G row call := by
  rcases takePushes_call self.port.stackPointerReg row with
    ⟨before', run, split, scannable, taken, longest⟩
  have collected : ∀ b : ResolutionBudget,
      (attempt (handler self.port) none (self.collectPushSequence call.ea) b).1 =
        some ((pushesOf run).map (·.ea)) := by
    intro b
    rw [collectPushSequence_eq listed.headsBefore, ← taken]
  constructor
  · intro holds pre x between rest split' push other scannable' p c π path succ jumped here
    have hc := (G.mem_successors_iff.mp succ).1
    have entered := ConsistentCfg.PathTo.intro (path.step succ) (Nat.le_refl _) (G.nonempty c hc)
    rw [(G.tiled c hc).before_eq_nil (Nat.le_refl _), List.append_nil, ← here] at entered
    have split'' : row = (pre ++ x :: between) ++ rest := by simp [split']
    have through : Scannable self.port.stackPointerReg rest :=
      (show Scannable _ ((x :: between) ++ rest) from scannable').of_append
    have ends := holds {} _ (collected _) _
      (listed.runs_through falls split'' through entered)
    -- the pushes of the row, as far as the jump skips them and behind it
    have part : x :: (between ++ rest) <:+ before' ++ run := ⟨pre, by rw [← split', split]⟩
    rcases scannable'.suffix longest part with ⟨more, rfl⟩
    rw [pushesOf_append, pushesOf_push push, pushesOf_append, pushesOf_eq_nil other,
      List.nil_append, pushesOf_append, List.map_append, List.map_cons, List.map_append] at ends
    rcases ends with ⟨early, same⟩
    rw [List.append_cons, ← List.append_assoc, ← List.append_assoc] at same
    have last := List.append_cancel_right same
    rcases List.map_eq_append_iff.mp last.symm with ⟨earlier, single, pushes, -, ea⟩
    rcases List.map_eq_singleton_iff.mp ea with ⟨y, rfl, here'⟩
    -- an address decodes to one instruction
    have member : y ∈ π ++ G.tile p := by
      have listed' : y ∈ pushesOf (π ++ G.tile p) := by simp [pushes]
      exact (List.mem_filter.mp listed').1
    rcases (path.step succ).mem_tile member with ⟨b, hb, home⟩
    have decoded := G.decoded b hb y home
    rw [here', listed.decoded x (by simp [split'])] at decoded
    cases decoded
    exact .of_pushesOf pushes
  · intro jumps b pushes answered π path
    rw [collected b] at answered
    cases answered
    have whole : row = before' ++ (run ++ []) := by rw [List.append_nil, split]
    have ends := listed.ends_with jumps whole (by rwa [List.append_nil]) path
    exact ends.map _

/-! ## An argument pushed on one path only -/

namespace SkippedPush

def skip : Instruction := FakeIdaPort.jump 0x401000 "jz" 2 0x401004

def first : Instruction := FakeIdaPort.push 0x401002 2 (FakeIdaPort.imm 0 1)

def second : Instruction := FakeIdaPort.push 0x401004 2 (FakeIdaPort.imm 0 2)

def call : Instruction := FakeIdaPort.jump 0x401006 "call" 5 0x402000

def port : IdaPort := FakeIdaPort.toPort
  { pointerSize := 4
    instructions := [skip, first, second, call]
    funcBounds := [(0x401000, 0x40100b)]
    blocks := [(0x401000, [⟨0x401000, 0x401002, [0x401002, 0x401004], []⟩,
      ⟨0x401002, 0x401004, [0x401004], [0x401000]⟩,
      ⟨0x401004, 0x40100b, [], [0x401000, 0x401002]⟩])] }

def graph : ConsistentCfg port 0x401000 where
  tile b :=
    if b.startEa = 0x401000 then [skip]
    else if b.startEa = 0x401002 then [first]
    else [second, call]
  entry := ⟨0x401000, 0x401002, [0x401002, 0x401004], []⟩
  entry_mem := by decide
  entry_startEa := rfl
  nonempty := by decide
  disjoint := by decide
  converse := by decide
  tiled := by decide
  decoded := by decide
  heads := by decide
  owner := by decide

theorem falls : graph.FallsThrough := by
  have lasts : ∀ b ∈ graph.cfg.blocks, ∀ i ∈ (graph.tile b).getLast?, i.isControlTransfer = false →
      ∃ c ∈ graph.cfg.successors b, c.startEa = b.endEa := by decide
  intro b member pre i split
  apply lasts b member
  simp [split]

theorem listed : Listed graph [skip, first, second] call where
  ordered := by decide
  low := by decide
  decoded := by decide
  last := by decide
  heads := by decide
  complete := by decide
  inside := by decide
  plain := by decide

def resolver : BackwardResolver where
  port := port
  registry := defaultRegistry

theorem jumped : graph.PathTo 0x401006 [skip, second] := by
  have taken : (⟨0x401004, 0x40100b, [], [0x401000, 0x401002]⟩ : BasicBlockInfo) ∈
      graph.cfg.successors graph.entry := by decide
  exact .intro (.step .entry taken) (by decide) (by decide)

/-- Both pushes are collected, but a path to the call executes the second one only. -/
theorem skipped_push_collected :
    (attempt (handler port) none (resolver.collectPushSequence 0x401006) {}).1 =
        some [0x401002, 0x401004] ∧
      ∃ π, graph.PathTo 0x401006 π ∧ ¬ [0x401002, 0x401004] <:+ (pushesOf π).map (·.ea) :=
  ⟨by decide, _, jumped, by decide⟩

/-- The jump over the first push does not bring it. -/
theorem collected_on_every_path_iff_skipped :
    ¬ JumpsBringThePush graph [skip, first, second] call := by
  intro jumps
  have every := (@collected_on_every_path_iff resolver 0x401000 graph falls _ _ listed).mpr jumps
  have ends := every {} [0x401002, 0x401004] (by decide) _ jumped
  exact absurd ends (by decide)

end SkippedPush

end IDAnalysister
