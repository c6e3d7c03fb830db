import Mathlib.Logic.Relation
import Wiring.Program.Basic
import Wiring.Proofs.Flow.Dominance

/-!
# Reachability in flow graphs

Which part of a function its flow graph is. While the graph is built, the condition of each block is
asked for once, when the block is entered. Given the answers, the graph has the blocks that control
can get to from the entry, with all edges that can be taken from them.
-/

namespace Wiring

open Wiring.Program (Block BlockId Terminator Operand Function)
open Wiring.Flow (Table)
open Relation (ReflTransGen)

/-- The blocks that may come next, given what the condition was found to be. -/
def Program.Terminator.chosen : Terminator → Option Bool → List BlockId
  | .branch _ thenBlock _, some true => [thenBlock]
  | .branch _ _ elseBlock, some false => [elseBlock]
  | t, _ => t.successors

namespace Flow.Table

variable {g : Table} {a b : Nat}

/-- The blocks that a block reaches are those that a chain of edges leads to. -/
theorem reaches_iff_reflTransGen :
    g.Reaches a b ↔ a < g.length ∧ ReflTransGen (fun b c ↦ c ∈ g.successors b) a b := by
  constructor
  · rintro ⟨p, hp⟩
    refine ⟨hp.start_lt, ?_⟩
    induction hp with
    | start h => exact .refl
    | step hp hc ih => exact ih.tail hc
  · rintro ⟨ha, h⟩
    induction h with
    | refl => exact .refl ha
    | tail _ hc ih => exact ih.step hc

end Flow.Table

namespace FlowGraph

/-- The function returns from the block. -/
def Returns (f : Function) (b : Nat) : Prop :=
  ∃ block, f.blocks[b]? = some block ∧ ∃ results, block.terminator = .ret results

/-- Given the answers about conditions, control can go from the first block to the second. -/
def Goes (f : Function) (answer : Nat → Option Bool) (b c : Nat) : Prop :=
  ∃ block, f.blocks[b]? = some block ∧ c < f.blocks.length ∧
    ∃ target ∈ block.terminator.chosen (answer b), target.toNat = c

/-- Given the answers about conditions, the graph is the part of the function that control can get
to from the entry. -/
structure Traces (f : Function) (answer : Nat → Option Bool) (g : FlowGraph) : Prop where
  reachable (b : Nat) :
    g.isReachable b ↔ 0 < f.blocks.length ∧ ReflTransGen (Goes f answer) 0 b
  edges (b c : Nat) : c ∈ g.successors b ↔ g.isReachable b ∧ Goes f answer b c
  blocks : g.blocks.Pairwise (· < ·) ∧ ∀ b, b ∈ g.blocks ↔ g.isReachable b
  returning : g.returning.Pairwise (· < ·) ∧
    ∀ b, b ∈ g.returning ↔ g.isReachable b ∧ Returns f b
  exits : g.exits.Pairwise (· < ·) ∧ ∀ b, b ∈ g.exits ↔ g.isReachable b ∧ Ends f b
  paths (a b : Nat) : g.pathExists a b ↔
    g.isReachable a ∧ ReflTransGen (fun b c ↦ c ∈ g.successors b) a b

/-- No edge is left out because its target is missing. -/
structure Whole (f : Function) (answer : Nat → Option Bool) (g : FlowGraph) : Prop where
  kept (b : Nat) (block : Block) (hb : g.isReachable b) (hblock : f.blocks[b]? = some block) :
    ∀ target ∈ block.terminator.chosen (answer b), target.toNat ∈ g.successors b
  ends (b : Nat) (hb : g.isReachable b) (hnone : g.successors b = []) : Ends f b

/-- Halfway through the search for a path to a block: everything pending comes after the first
block, and every marked block has been looked at and passed, with nothing after it forgotten. -/
structure Following (g : FlowGraph) (a target : Nat) (pending unmarked : List Nat) : Prop where
  nodup : unmarked.Nodup
  lt : ∀ b ∈ pending, b < g.size
  reached : ∀ b ∈ pending, ReflTransGen (fun b c ↦ c ∈ g.successors b) a b
  start : a ∈ pending ∨ a ∉ unmarked
  passed : target < g.size → target ∈ unmarked
  kept : ∀ b < g.size, b ∉ unmarked → ∀ c ∈ g.successors b, c ∈ pending ∨ c ∉ unmarked

namespace Following

variable {g : FlowGraph} {a b target : Nat} {pending unmarked : List Nat}

/-- At the start no block is marked, and the first one is pending. -/
theorem start_at (ha : a < g.size) : Following g a target [a] (List.range g.size) where
  nodup := List.nodup_range
  lt := by simpa using ha
  reached b hb := by
    obtain rfl : b = a := by simpa using hb
    exact .refl
  start := .inl (by simp)
  passed := List.mem_range.mpr
  kept b hlt hb := absurd (List.mem_range.mpr hlt) hb

/-- A block that is not the one looked for is marked, and what edges lead to becomes pending. -/
theorem mark (h : Following g a target (b :: pending) unmarked)
    (hrange : ∀ b c, c ∈ g.successors b → c < g.size) (hb : b ≠ target) :
    Following g a target ((g.successors b).reverse ++ pending) (unmarked.erase b) where
  nodup := h.nodup.erase b
  lt c hc := by
    rcases List.mem_append.mp hc with hc | hc
    · exact hrange b c (List.mem_reverse.mp hc)
    · exact h.lt c (List.mem_cons_of_mem _ hc)
  reached c hc := by
    rcases List.mem_append.mp hc with hc | hc
    · exact (h.reached b (by simp)).tail (List.mem_reverse.mp hc)
    · exact h.reached c (List.mem_cons_of_mem _ hc)
  start := by
    rw [h.nodup.mem_erase_iff]
    rcases h.start with ha | ha
    · rcases List.mem_cons.mp ha with rfl | ha
      · exact .inr fun hmem ↦ hmem.1 rfl
      · exact .inl (List.mem_append_right _ ha)
    · exact .inr fun hmem ↦ ha hmem.2
  passed htarget := (List.mem_erase_of_ne hb.symm).mpr (h.passed htarget)
  kept c hlt hc d hd := by
    rw [h.nodup.mem_erase_iff] at hc ⊢
    by_cases hcb : c = b
    · subst hcb
      exact .inl (List.mem_append_left _ (List.mem_reverse.mpr hd))
    · rcases h.kept c hlt (fun hmem ↦ hc ⟨hcb, hmem⟩) d hd with hpending | hmarked
      · rcases List.mem_cons.mp hpending with rfl | hpending
        · exact .inr fun hmem ↦ hmem.1 rfl
        · exact .inl (List.mem_append_right _ hpending)
      · exact .inr fun hmem ↦ hmarked hmem.2

/-- A block that comes again is passed over. -/
theorem pass (h : Following g a target (b :: pending) unmarked) (hb : b ∉ unmarked) :
    Following g a target pending unmarked where
  nodup := h.nodup
  lt c hc := h.lt c (List.mem_cons_of_mem _ hc)
  reached c hc := h.reached c (List.mem_cons_of_mem _ hc)
  start := by
    refine h.start.elim (fun ha ↦ ?_) .inr
    rcases List.mem_cons.mp ha with rfl | ha
    · exact .inr hb
    · exact .inl ha
  passed := h.passed
  kept c hlt hc d hd := by
    refine (h.kept c hlt hc d hd).elim (fun hpending ↦ ?_) .inr
    rcases List.mem_cons.mp hpending with rfl | hpending
    · exact .inr hb
    · exact .inl hpending

/-- When nothing is pending, the marked blocks are closed under edges: no path leaves them. -/
theorem not_path (h : Following g a target [] unmarked) (ha : a < g.size)
    (hrange : ∀ b c, c ∈ g.successors b → c < g.size) :
    ¬ReflTransGen (fun b c ↦ c ∈ g.successors b) a target := by
  intro hpath
  have hmarked (b : Nat) (hb : ReflTransGen (fun b c ↦ c ∈ g.successors b) a b) :
      b < g.size ∧ b ∉ unmarked := by
    induction hb with
    | refl => exact ⟨ha, h.start.resolve_left (by simp)⟩
    | @tail b c _ hc ih =>
      exact ⟨hrange b c hc, (h.kept b ih.1 ih.2 c hc).resolve_left (by simp)⟩
  obtain ⟨hlt, hnot⟩ := hmarked target hpath
  exact hnot (h.passed hlt)

/-- The search finds the block exactly if a path leads to it. -/
theorem leadsTo_iff (h : Following g a target pending unmarked) (ha : a < g.size)
    (hrange : ∀ b c, c ∈ g.successors b → c < g.size) :
    g.leadsTo target pending unmarked ↔
      ReflTransGen (fun b c ↦ c ∈ g.successors b) a target := by
  fun_induction leadsTo g target pending unmarked with
  | case1 unmarked => simpa using h.not_path ha hrange
  | case2 unmarked pending => simpa using h.reached _ (List.mem_cons_self)
  | case3 unmarked b pending hb hmem ih => exact ih (h.mark hrange hb)
  | case4 unmarked b pending hb hmem ih => exact ih (h.pass hmem)

end Following

section Asking

variable {m : Type → Type} [Monad m]

/-- What is found of the condition of a block; nothing if it has none. -/
def conditionAt (decide : Operand → m (Option Bool)) (blocks : List Block) (b : Nat) :
    m (Option Bool) :=
  match blocks[b]?.map Block.terminator with
  | some (.branch cond _ _) => decide cond
  | _ => return none

/-- Ask for the conditions of some blocks, one after another. -/
def ask (decide : Operand → m (Option Bool)) (blocks : List Block) (order : List Nat) :
    m (List (Nat × Option Bool)) :=
  order.mapM fun b ↦ do return (b, ← conditionAt decide blocks b)

end Asking

/-- What has been answered about the condition of a block. -/
def answered (asked : List (Nat × Option Bool)) (b : Nat) : Option Bool := (asked.lookup b).join

variable {D : Operand → Bool → Prop} {f : Function} {blocks : List Block} {b c size : Nat}
  {t : Terminator} {decision : Option Bool} {unfound : List Nat} {x : Explored}

/-- The edges that are taken are those that are chosen, as far as they lead to blocks. -/
theorem mem_taken_iff :
    c ∈ taken size t decision ↔ c < size ∧ ∃ target ∈ t.chosen decision, target.toNat = c := by
  cases t with
  | branch cond x y =>
    rcases decision with _ | _ | _ <;>
      simp [taken, Terminator.chosen, Terminator.successors, and_comm, eq_comm]
  | jump | ret | panic =>
    simp [taken, Terminator.chosen, Terminator.successors, and_comm, eq_comm]

section Exploration

variable {σ : Type} (decide : Operand → StateM σ (Option Bool))

/-- The edges of a block, given what has been found of its condition. -/
def takenAt (blocks : List Block) (b : Nat) (decision : Option Bool) : List Nat :=
  match blocks[b]? with
  | some block => taken blocks.length block.terminator decision
  | none => []

/-- What a search has collected once it has entered some more blocks, whose conditions have been
asked for. -/
def collect (blocks : List Block) (asked : List (Nat × Option Bool)) (x : Explored) : Explored :=
  asked.foldl
    (fun x e ↦ x.enter e.1 (blocks[e.1]?.map Block.terminator) (takenAt blocks e.1 e.2)) x

/-- What a search has collected of the blocks whose conditions have been asked for. -/
def collected (blocks : List Block) (asked : List (Nat × Option Bool)) : Explored :=
  collect blocks asked ⟨[], [], []⟩

theorem entered_collect (blocks : List Block) (asked : List (Nat × Option Bool)) :
    ∀ x : Explored, (collect blocks asked x).entered =
      (asked.map fun e ↦ (e.1, takenAt blocks e.1 e.2)).reverse ++ x.entered := by
  induction asked with
  | nil => exact fun x ↦ rfl
  | cons e asked ih =>
    intro x
    rw [List.map_cons, List.reverse_cons, List.append_assoc]
    exact (ih _).trans (congrArg _ (Explored.entered_enter _))

theorem entered_collected (blocks : List Block) (asked : List (Nat × Option Bool)) :
    (collected blocks asked).entered =
      (asked.map fun e ↦ (e.1, takenAt blocks e.1 e.2)).reverse :=
  (entered_collect blocks asked _).trans (List.append_nil _)

/-- The edges of a block follow from what is found of its condition. -/
theorem edgesAt_eq (blocks : List Block) (b : Nat) :
    edgesAt decide blocks b = takenAt blocks b <$> conditionAt decide blocks b := by
  unfold edgesAt takenAt conditionAt
  cases blocks[b]? with
  | none => rfl
  | some block =>
    obtain ⟨_, t⟩ := block
    cases t <;> rfl

/-- One condition is asked for after the other. -/
theorem ask_cons (blocks : List Block) (b : Nat) (order : List Nat) (s : σ) :
    ask decide blocks (b :: order) s =
      ((b, (conditionAt decide blocks b s).1) ::
        (ask decide blocks order (conditionAt decide blocks b s).2).1,
      (ask decide blocks order (conditionAt decide blocks b s).2).2) := by
  unfold ask
  rw [List.mapM_cons]
  rfl

/-- The answers are those about the blocks, in order. -/
theorem map_fst_ask (blocks : List Block) (order : List Nat) (s : σ) :
    (ask decide blocks order s).1.map Prod.fst = order := by
  induction order generalizing s with
  | nil => rfl
  | cons b order ih => rw [ask_cons, List.map_cons, ih]

/-- An exploration asks for the conditions of the blocks that it enters, each when its turn comes,
and nothing else. -/
theorem explore_eq_ask (blocks : List Block) (pending unfound : List Nat) (x : Explored) (s : σ) :
    ∃ order, explore decide blocks pending unfound x s =
      (collect blocks (ask decide blocks order s).1 x, (ask decide blocks order s).2) := by
  induction hn : pending.length + unfound.length using Nat.strongRecOn
    generalizing pending unfound x s with
  | ind n ih =>
    cases pending with
    | nil =>
      rw [explore]
      exact ⟨[], rfl⟩
    | cons b pending =>
      rw [explore_cons, edgesAt_eq]
      let found := takenAt blocks b (conditionAt decide blocks b s).1
      obtain ⟨order, horder⟩ := ih
        ((discover found pending unfound).1.length + (discover found pending unfound).2.length)
        (by rw [length_discover, ← hn, List.length_cons]; omega)
        (discover found pending unfound).1 (discover found pending unfound).2
        (x.enter b (blocks[b]?.map Block.terminator) found) (conditionAt decide blocks b s).2 rfl
      refine ⟨b :: order, horder.trans ?_⟩
      rw [ask_cons]
      rfl

end Exploration

section Explored

variable (h : Exploring D blocks [] unfound x)
include h

/-- The listed blocks are the reachable ones. -/
theorem Exploring.mem_blocks_iff :
    b ∈ (ofExplored blocks x).blocks ↔ (ofExplored blocks x).isReachable b := by
  unfold FlowGraph.blocks
  rw [List.mem_filter, and_iff_right_iff_imp, List.mem_range]
  intro hb
  obtain ⟨found, hmem⟩ := h.isReachable_iff_mem.mp hb
  simpa [size, ofExplored] using h.lt_of_mem hmem

/-- The question for a path is answered by the edges. -/
theorem Exploring.pathExists_iff (a b : Nat) : (ofExplored blocks x).pathExists a b ↔
    (ofExplored blocks x).isReachable a ∧
      ReflTransGen (fun b c ↦ c ∈ (ofExplored blocks x).successors b) a b := by
  have hlt {b : Nat} (hb : (ofExplored blocks x).isReachable b) :
      b < (ofExplored blocks x).size := by
    obtain ⟨found, hmem⟩ := h.isReachable_iff_mem.mp hb
    simpa [size, ofExplored] using h.lt_of_mem hmem
  rw [pathExists, Bool.and_eq_true]
  exact and_congr_right fun ha ↦ (Following.start_at (hlt ha)).leadsTo_iff (hlt ha)
    fun b c hc ↦ hlt (h.isReachable_of_mem hc)

end Explored

theorem returns_iff : returns f.blocks b ↔ Returns f b := by
  unfold returns Returns
  cases f.blocks[b]? with
  | none => simp
  | some block =>
    obtain ⟨_, t⟩ := block
    cases t <;> simp

/-- The returning blocks are the reachable blocks from which the function returns. -/
theorem Exploring.mem_returning_iff (h : Exploring D f.blocks [] unfound x) :
    b ∈ (ofExplored f.blocks x).returning ↔
      (ofExplored f.blocks x).isReachable b ∧ Returns f b := by
  have hdef : b ∈ (ofExplored f.blocks x).returning ↔ b ∈ x.returning := mem_sort
  rw [hdef, h.returning, List.mem_filter, h.isReachable_iff_mem_keys, returns_iff]

section Asked

variable {asked : List (Nat × Option Bool)}
  (h : Exploring D f.blocks [] unfound (collected f.blocks asked))
include h

/-- No condition is asked for twice. -/
theorem nodup_asked : (asked.map Prod.fst).Nodup := by
  have hnodup := h.nodup
  rw [entered_collected, List.map_reverse, List.nodup_reverse, List.map_map] at hnodup
  exact hnodup

/-- A block whose condition has been asked for has been entered, with the edges that follow from the
answer. -/
theorem mem_collected_iff {found : List Nat} : (b, found) ∈ (collected f.blocks asked).entered ↔
    b ∈ asked.map Prod.fst ∧ found = takenAt f.blocks b (answered asked b) := by
  have hanswer {d : Option Bool} (hd : (b, d) ∈ asked) : answered asked b = d := by
    unfold answered
    rw [(lookup_eq_some_iff_mem (nodup_asked h)).mpr hd]
    rfl
  rw [entered_collected, List.mem_reverse, List.mem_map, List.mem_map]
  constructor
  · rintro ⟨⟨_, d⟩, hd, ⟨⟩⟩
    exact ⟨⟨_, hd, rfl⟩, by rw [hanswer hd]⟩
  · rintro ⟨⟨⟨_, d⟩, hd, rfl⟩, rfl⟩
    exact ⟨_, hd, by rw [hanswer hd]⟩

/-- The reachable blocks are those whose conditions have been asked for. -/
theorem isReachable_iff_asked :
    (ofExplored f.blocks (collected f.blocks asked)).isReachable b ↔ b ∈ asked.map Prod.fst := by
  rw [h.isReachable_iff_mem]
  simp only [mem_collected_iff h, exists_and_left, exists_eq, and_true]

/-- The edges are those that control can take from reachable blocks. -/
theorem mem_successors_iff_goes :
    c ∈ (ofExplored f.blocks (collected f.blocks asked)).successors b ↔
      (ofExplored f.blocks (collected f.blocks asked)).isReachable b ∧ Goes f (answered asked) b c := by
  rw [h.mem_successors_iff, isReachable_iff_asked h]
  simp only [mem_collected_iff h, and_assoc, exists_and_left, exists_eq_left]
  refine and_congr_right fun _ ↦ ?_
  unfold takenAt Goes
  cases hb : f.blocks[b]? with
  | none => simp
  | some block => simp [mem_taken_iff]

/-- The reachable blocks are those that control can get to from the entry. -/
theorem isReachable_iff_reflTransGen :
    (ofExplored f.blocks (collected f.blocks asked)).isReachable b ↔
      0 < f.blocks.length ∧ ReflTransGen (Goes f (answered asked)) 0 b := by
  have hlength : (ofExplored f.blocks (collected f.blocks asked)).table.length =
      f.blocks.length := by simp [table, ofExplored]
  have hedge (b c : Nat) := mem_successors_iff_goes h (b := b) (c := c)
  rw [h.isReachable_iff_reaches]
  constructor
  · intro hreaches
    obtain ⟨hpos, hpath⟩ := Table.reaches_iff_reflTransGen.mp hreaches
    rw [hlength] at hpos
    refine ⟨hpos, ReflTransGen.mono (fun b c hc ↦ ?_) _ _ hpath⟩
    rw [successors_table] at hc
    exact ((hedge b c).mp hc).2
  · rintro ⟨hpos, hpath⟩
    induction hpath with
    | refl => exact .refl (hlength ▸ hpos)
    | tail _ hgoes ih =>
      refine ih.step ?_
      rw [successors_table]
      exact (hedge _ _).mpr ⟨h.isReachable_iff_reaches.mpr ih, hgoes⟩

/-- The graph is the part of the function that control can get to, given what has been answered. -/
theorem traces_ofExplored :
    Traces f (answered asked) (ofExplored f.blocks (collected f.blocks asked)) where
  reachable b := isReachable_iff_reflTransGen h
  edges b c := mem_successors_iff_goes h
  blocks := ⟨List.pairwise_lt_range.filter _, fun b ↦ h.mem_blocks_iff⟩
  returning := ⟨pairwise_sort (h.returning ▸ h.nodup.filter _), fun b ↦ h.mem_returning_iff⟩
  exits := ⟨pairwise_sort (h.exits ▸ h.nodup.filter _), fun b ↦ by
    rw [h.mem_exits_iff, h.isReachable_iff_reaches]⟩
  paths := h.pathExists_iff

end Asked

/-- In a program without dangling branches, every block that may come next is there. -/
theorem lt_of_check {p : Program} (hp : p.check = .ok ()) (hf : f ∈ p.functions.toList)
    {block : Block} (hblock : f.blocks[b]? = some block) {target : BlockId}
    (htarget : target ∈ block.terminator.successors) : target.toNat < f.blocks.length := by
  have hnone : p.functions.toList.flatMap Program.danglingBranches = [] := by
    unfold Program.check at hp
    split at hp
    · assumption
    · cases hp
  by_contra hlt
  have hdangling : (⟨f.name, b, target⟩ : Program.DanglingBranch) ∈ Program.danglingBranches f := by
    refine List.mem_flatMap.mpr ⟨(block, b), List.mk_mem_zipIdx_iff_getElem?.mpr hblock, ?_⟩
    refine List.mem_map.mpr ⟨target, List.mem_filter.mpr ⟨htarget, ?_⟩, rfl⟩
    simpa using hlt
  have hmem := List.mem_flatMap.mpr ⟨f, hf, hdangling⟩
  rw [hnone] at hmem
  cases hmem

theorem mem_successors_of_mem_chosen {target : BlockId} (h : target ∈ t.chosen decision) :
    target ∈ t.successors := by
  unfold Terminator.chosen at h
  split at h
  · simp_all [Terminator.successors]
  · simp_all [Terminator.successors]
  · exact h

/-- Nothing comes next only where the function ends. -/
theorem chosen_eq_nil_iff : t.chosen decision = [] ↔ t = .panic ∨ ∃ results, t = .ret results := by
  cases t with
  | branch cond x y =>
    rcases decision with _ | _ | _ <;> simp [Terminator.chosen, Terminator.successors]
  | jump | ret | panic => simp [Terminator.chosen, Terminator.successors]

/-- Reachable blocks are blocks of the function. -/
theorem Traces.lt_of_isReachable {answer : Nat → Option Bool} {g : FlowGraph}
    (h : Traces f answer g) (hb : g.isReachable b) : b < f.blocks.length := by
  obtain ⟨hpos, hpath⟩ := (h.reachable b).mp hb
  rcases hpath.cases_tail with rfl | ⟨c, -, block, -, hlt, -⟩
  · exact hpos
  · exact hlt

/-- In a program without dangling branches, no edge of a function is left out. -/
theorem Traces.whole {answer : Nat → Option Bool} {g : FlowGraph} (h : Traces f answer g)
    {p : Program} (hp : p.check = .ok ()) (hf : f ∈ p.functions.toList) : Whole f answer g := by
  have hkept (b : Nat) (block : Block) (hb : g.isReachable b) (hblock : f.blocks[b]? = some block) :
      ∀ target ∈ block.terminator.chosen (answer b), target.toNat ∈ g.successors b := by
    intro target htarget
    have hlt := lt_of_check hp hf hblock (mem_successors_of_mem_chosen htarget)
    exact (h.edges b _).mpr ⟨hb, block, hblock, hlt, target, htarget, rfl⟩
  refine ⟨hkept, fun b hb hnone ↦ ?_⟩
  obtain ⟨block, hblock⟩ : ∃ block, f.blocks[b]? = some block :=
    ⟨_, List.getElem?_eq_getElem (h.lt_of_isReachable hb)⟩
  have hchosen : block.terminator.chosen (answer b) = [] := by
    rw [List.eq_nil_iff_forall_not_mem]
    intro target htarget
    have hmem := hkept b block hb hblock target htarget
    rw [hnone] at hmem
    cases hmem
  exact ⟨block, hblock, chosen_eq_nil_iff.mp hchosen⟩

section Building

variable {σ : Type} (decide : Operand → StateM σ (Option Bool))

/-- What is built of a function is the graph of an exploration in which the conditions of some
blocks have been asked for. -/
theorem build_eq_ask (f : Function) (s : σ) : ∃ order,
    build decide f s = (ofExplored f.blocks (collected f.blocks (ask decide f.blocks order s).1),
      (ask decide f.blocks order s).2) ∧
    ∃ unfound, Exploring (fun _ _ ↦ True) f.blocks [] unfound
      (collected f.blocks (ask decide f.blocks order s).1) := by
  by_cases hnil : f.blocks = []
  · have hcollected : collected f.blocks (ask decide f.blocks [] s).1 = ⟨[], [], []⟩ := rfl
    refine ⟨[], ?_, [], ?_⟩
    · unfold build
      rw [hnil]
      rfl
    · rw [hcollected, hnil]
      constructor <;> simp
  · have hpos : 0 < f.blocks.length := List.length_pos_iff.mpr hnil
    obtain ⟨order, horder⟩ := explore_eq_ask decide f.blocks [0]
      ((List.range f.blocks.length).erase 0) ⟨[], [], []⟩ s
    have hexplored := (explore_yields (decide_yields decide) (.start hpos) s trivial).1
    rw [horder] at hexplored
    refine ⟨order, ?_, hexplored⟩
    rw [build_of_ne_nil hnil]
    change (ofExplored f.blocks (explore decide f.blocks _ _ _ s).1, _) = _
    rw [horder]
    rfl

end Building

/-- However conditions are decided: while the flow graph of a function is built, the conditions of
the reachable blocks are asked for, one after another and once each, and nothing else. Given the
answers, the graph is the part of the function that control can get to from the entry. If the
function is one of a program without dangling branches, it is that part with all its edges. -/
theorem build_traces {σ : Type} (decide : Operand → StateM σ (Option Bool)) (f : Function) (s : σ) :
    let g := (build decide f s).1
    ∃ order, order.Perm g.blocks ∧
      (ask decide f.blocks order s).2 = (build decide f s).2 ∧
      let answer := answered (ask decide f.blocks order s).1
      Traces f answer g ∧
        ∀ p : Program, p.check = .ok () → f ∈ p.functions.toList → Whole f answer g := by
  obtain ⟨order, hbuild, unfound, h⟩ := build_eq_ask decide f s
  have htraces := traces_ofExplored h
  rw [hbuild]
  refine ⟨order, ?_, rfl, htraces, fun p hp hf ↦ htraces.whole hp hf⟩
  have hasked := map_fst_ask decide f.blocks order s
  have hnodup : order.Nodup := hasked ▸ nodup_asked h
  rw [List.perm_ext_iff_of_nodup hnodup htraces.blocks.1.nodup]
  intro b
  rw [htraces.blocks.2 b, isReachable_iff_asked h, hasked]

/-- A function that tries again and again, and may give up after it has tried. -/
def retrying : Function := ⟨"retry", [],
  [⟨[], .branch (.param 0) ⟨1⟩ ⟨2⟩⟩, ⟨[], .jump ⟨0⟩⟩, ⟨[], .branch (.param 1) ⟨3⟩ ⟨4⟩⟩,
   ⟨[], .panic⟩, ⟨[], .ret []⟩]⟩

/-- It does not give up; the questions are counted. -/
def unfailing : Operand → StateM Nat (Option Bool)
  | .param 1 => fun asked ↦ (some false, asked + 1)
  | _ => fun asked ↦ (none, asked + 1)

/-- Where the function gives up is not reachable. Two conditions have been asked for. -/
theorem build_traces_retrying :
    let p := Program.ofLists [] [retrying] []
    let g := (build unfailing retrying 0).1
    p.check = .ok () ∧ retrying ∈ p.functions.toList ∧ g.blocks = [0, 1, 2, 4] ∧
    (build unfailing retrying 0).2 = 2 ∧
    ∃ answer, Traces retrying answer g ∧ Whole retrying answer g := by
  intro p g
  have hcheck : p.check = .ok () := by decide +kernel
  have hmem : retrying ∈ p.functions.toList := by decide +kernel
  obtain ⟨order, -, -, htraces, hwhole⟩ := build_traces unfailing retrying 0
  exact ⟨hcheck, hmem, by decide +kernel, by decide +kernel, _, htraces, hwhole p hcheck hmem⟩

end FlowGraph
end Wiring
