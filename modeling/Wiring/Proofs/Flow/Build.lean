import Mathlib.Data.List.Sort
import Wiring.Flow.Graph
import Wiring.Proofs.Flow.Search
import Wiring.Proofs.Yields

/-!
# Building flow graphs

What the exploration of a function finds: the blocks that can be entered, each with the edges that
a decision of its condition leaves. Nothing is assumed of the decisions but that there is a ground
for each.
-/

namespace Wiring.FlowGraph

open Wiring.Program (Block Terminator Operand Function)
open Wiring.Flow (Table)

/-- The edges of a block that can be taken, given what is known of its condition. -/
def taken (size : Nat) : Terminator → Option Bool → List Nat
  | .branch _ thenBlock elseBlock, decision =>
    ((match decision with
      | some true => [thenBlock.toNat]
      | some false => [elseBlock.toNat]
      | none => [thenBlock.toNat, elseBlock.toNat]).filter (· < size)).eraseDups
  | t, _ => (t.successors.map UInt64.toNat).filter (· < size)

/-- The edges are those that a decision leaves, and a decision has a ground. -/
def Grounded (D : Operand → Bool → Prop) (size : Nat) (t : Terminator) (found : List Nat) : Prop :=
  ∃ decision, (∀ cond x y v, t = .branch cond x y → decision = some v → D cond v) ∧
    found = taken size t decision

/-- The blocks that edges lead to from the entry. -/
inductive Found (entered : List (Nat × List Nat)) : Nat → Prop
  | entry : Found entered 0
  | edge {b c : Nat} {found : List Nat} (hb : Found entered b) (hmem : (b, found) ∈ entered)
      (hc : c ∈ found) : Found entered c

/-- The block returns. -/
def returns (blocks : List Block) (b : Nat) : Bool :=
  (blocks[b]?.map Block.terminator).any fun t ↦ match t with
    | .ret _ => true
    | _ => false

/-- The function ends in the block. -/
def ends (blocks : List Block) (b : Nat) : Bool :=
  (blocks[b]?.map Block.terminator).any fun t ↦ match t with
    | .ret _ | .panic => true
    | _ => false

/-- Halfway through an exploration: what has been collected of the blocks entered, those to enter
next, and those not found. -/
structure Exploring (D : Operand → Bool → Prop) (blocks : List Block)
    (pending unfound : List Nat) (x : Explored) : Prop where
  known : ((x.entered.map Prod.fst ++ pending) ++ unfound).Perm (List.range blocks.length)
  grounded : ∀ b found, (b, found) ∈ x.entered →
    ∃ block, blocks[b]? = some block ∧ Grounded D blocks.length block.terminator found
  closed : ∀ b found, (b, found) ∈ x.entered → ∀ c ∈ found, c ∈ x.entered.map Prod.fst ++ pending
  entry : 0 < blocks.length → 0 ∈ x.entered.map Prod.fst ++ pending
  found : ∀ b ∈ x.entered.map Prod.fst ++ pending, Found x.entered b
  returning : x.returning = (x.entered.map Prod.fst).filter (returns blocks)
  exits : x.exits = (x.entered.map Prod.fst).filter (ends blocks)

variable {D : Operand → Bool → Prop} {blocks : List Block} {b c size : Nat}
  {pending unfound found : List Nat} {entered : List (Nat × List Nat)} {x : Explored}
  {t : Terminator}

@[simp]
theorem Explored.entered_enter (t : Option Terminator) :
    (x.enter b t found).entered = (b, found) :: x.entered := by
  unfold Explored.enter
  split <;> rfl

/-- A block is collected with those that return if it returns. -/
theorem Explored.returning_enter (blocks : List Block) (b : Nat) (found : List Nat) :
    (x.enter b (blocks[b]?.map Block.terminator) found).returning =
      if returns blocks b then b :: x.returning else x.returning := by
  unfold Explored.enter returns
  rcases blocks[b]? with _ | ⟨_, _ | _ | _ | _⟩ <;> rfl

/-- A block is collected with the exits if the function ends in it. -/
theorem Explored.exits_enter (blocks : List Block) (b : Nat) (found : List Nat) :
    (x.enter b (blocks[b]?.map Block.terminator) found).exits =
      if ends blocks b then b :: x.exits else x.exits := by
  unfold Explored.enter ends
  rcases blocks[b]? with _ | ⟨_, _ | _ | _ | _⟩ <;> rfl

theorem insert_eq_orderedInsert (b : Nat) (l : List Nat) :
    insert b l = l.orderedInsert (· ≤ ·) b := by
  induction l with
  | nil => rfl
  | cons c l ih => rw [insert, ih, List.orderedInsert]

theorem sort_eq_insertionSort (l : List Nat) : sort l = l.insertionSort (· ≤ ·) := by
  induction l with
  | nil => rfl
  | cons b l ih => rw [List.insertionSort_cons, ← ih, ← insert_eq_orderedInsert]; rfl

/-- Sorting leaves the blocks as they are. -/
@[simp]
theorem mem_sort {l : List Nat} : b ∈ sort l ↔ b ∈ l := by
  rw [sort_eq_insertionSort, List.mem_insertionSort]

/-- Blocks that are collected once each are sorted without duplicates. -/
theorem pairwise_sort {l : List Nat} (h : l.Nodup) : (sort l).Pairwise (· < ·) := by
  rw [sort_eq_insertionSort]
  have hnodup := (List.perm_insertionSort (· ≤ ·) l).nodup_iff.mpr h
  exact (List.pairwise_insertionSort (· ≤ ·) l).imp₂
    (fun b c hle hne ↦ lt_of_le_of_ne hle hne) hnodup

/-- An edge that can be taken leads to a block. -/
theorem lt_of_mem_taken {decision : Option Bool} (h : c ∈ taken size t decision) : c < size := by
  unfold taken at h
  split at h
  · rw [List.mem_eraseDups] at h
    simpa using (List.mem_filter.mp h).2
  · simpa using (List.mem_filter.mp h).2

/-- A jump is taken to its target. -/
theorem mem_taken_jump {target : Program.BlockId} {decision : Option Bool} :
    c ∈ taken size (.jump target) decision ↔ c = target.toNat ∧ c < size := by
  simp [taken, Terminator.successors]

/-- A branch is taken to either target, unless its condition has been decided. -/
theorem mem_taken_branch {cond : Operand} {x y : Program.BlockId} {decision : Option Bool} :
    c ∈ taken size (.branch cond x y) decision ↔
      (∀ v, decision = some v → c = (if v then x else y).toNat) ∧
        (c = x.toNat ∨ c = y.toNat) ∧ c < size := by
  unfold taken
  rw [List.mem_eraseDups, List.mem_filter, decide_eq_true_eq]
  rcases decision with _ | _ | _
  · simp
  · simp
    omega
  · simp
    omega

/-- Blocks found are those that were pending and the new ones that an edge leads to. -/
theorem mem_or_of_mem_discover (h : b ∈ (discover found pending unfound).1) :
    b ∈ pending ∨ b ∈ found := by
  fun_induction discover found pending unfound with
  | case1 pending unfound => exact Or.inl h
  | case2 a found pending unfound hmem ih =>
    rcases ih h with hp | hf
    · rcases List.mem_cons.mp hp with rfl | hp
      · exact Or.inr (by simp)
      · exact Or.inl hp
    · exact Or.inr (List.mem_cons_of_mem _ hf)
  | case3 a found pending unfound hmem ih =>
    rcases ih h with hp | hf
    · exact Or.inl hp
    · exact Or.inr (List.mem_cons_of_mem _ hf)

/-- What is pending stays pending. -/
theorem mem_discover_of_mem (h : b ∈ pending) : b ∈ (discover found pending unfound).1 := by
  fun_induction discover found pending unfound with
  | case1 pending unfound => exact h
  | case2 a found pending unfound hmem ih => exact ih (List.mem_cons_of_mem _ h)
  | case3 a found pending unfound hmem ih => exact ih h

/-- A block that an edge leads to is found, if it was not before. -/
theorem mem_discover_of_mem_unfound (hf : b ∈ found) (hu : b ∈ unfound) :
    b ∈ (discover found pending unfound).1 := by
  fun_induction discover found pending unfound with
  | case1 pending unfound => simp at hf
  | case2 a found pending unfound hmem ih =>
    by_cases hab : b = a
    · exact mem_discover_of_mem (by simp [hab])
    · exact ih (by simpa [hab] using hf) ((List.mem_erase_of_ne hab).mpr hu)
  | case3 a found pending unfound hmem ih =>
    have hab : b ≠ a := fun hab ↦ hmem (hab ▸ hu)
    exact ih (by simpa [hab] using hf) hu

/-- Discovery moves blocks from the unfound to the pending ones. -/
theorem discover_perm : ((discover found pending unfound).1 ++
    (discover found pending unfound).2).Perm (pending ++ unfound) := by
  fun_induction discover found pending unfound with
  | case1 pending unfound => exact .refl _
  | case2 a found pending unfound hmem ih =>
    have hmove : (pending ++ unfound).Perm (pending ++ a :: unfound.erase a) :=
      (List.perm_cons_erase hmem).append_left pending
    exact ih.trans (List.perm_middle.symm.trans hmove.symm)
  | case3 a found pending unfound hmem ih => exact ih

/-- More edges lead to more blocks. -/
theorem Found.mono {entered' : List (Nat × List Nat)} (h : Found entered b)
    (hsub : ∀ e ∈ entered, e ∈ entered') : Found entered' b := by
  induction h with
  | entry => exact .entry
  | edge hb hmem hc ih => exact .edge ih (hsub _ hmem) hc

/-- At the start the entry, if there is one, is to be entered. -/
theorem Exploring.start (h : 0 < blocks.length) :
    Exploring D blocks [0] ((List.range blocks.length).erase 0) ⟨[], [], []⟩ where
  known := (List.perm_cons_erase (List.mem_range.mpr h)).symm
  grounded b found hmem := by simp at hmem
  closed b found hmem := by simp at hmem
  entry _ := by simp
  found b hb := by
    obtain rfl : b = 0 := by simpa using hb
    exact .entry
  returning := rfl
  exits := rfl

/-- Entering a pending block keeps what is known. -/
theorem Exploring.enter {block : Block} (h : Exploring D blocks (b :: pending) unfound x)
    (hb : blocks[b]? = some block) (hg : Grounded D blocks.length block.terminator found) :
    Exploring D blocks (discover found pending unfound).1 (discover found pending unfound).2
      (x.enter b (blocks[b]?.map Block.terminator) found) := by
  have hkept : ∀ c ∈ x.entered.map Prod.fst ++ b :: pending,
      c ∈ ((b, found) :: x.entered).map Prod.fst ++ (discover found pending unfound).1 := by
    intro c hc
    rcases List.mem_append.mp hc with hc | hc
    · exact List.mem_append_left _ (by simpa using Or.inr (by simpa using hc))
    · rcases List.mem_cons.mp hc with rfl | hc
      · simp
      · exact List.mem_append_right _ (mem_discover_of_mem hc)
  constructor <;> simp only [Explored.entered_enter]
  case entry => exact fun hpos ↦ hkept 0 (h.entry hpos)
  case known =>
    have hmove : (x.entered.map Prod.fst ++ (b :: (pending ++ unfound))).Perm
        (List.range blocks.length) := by
      simpa [List.append_assoc] using h.known
    rw [List.map_cons, List.append_assoc, List.cons_append]
    exact ((discover_perm.append_left _).cons b).trans (List.perm_middle.symm.trans hmove)
  case grounded =>
    intro c l hc
    rcases List.mem_cons.mp hc with heq | hc
    · cases heq
      exact ⟨block, hb, hg⟩
    · exact h.grounded c l hc
  case closed =>
    intro c l hc d hd
    rcases List.mem_cons.mp hc with heq | hc
    · cases heq
      obtain ⟨decision, -, rfl⟩ := hg
      have hrange : d ∈ (x.entered.map Prod.fst ++ b :: pending) ++ unfound :=
        h.known.mem_iff.mpr (List.mem_range.mpr (lt_of_mem_taken hd))
      rcases List.mem_append.mp hrange with hknown | hu
      · exact hkept d hknown
      · exact List.mem_append_right _ (mem_discover_of_mem_unfound hd hu)
    · exact hkept d (h.closed c l hc d hd)
  case found =>
    have hmono : ∀ c, Found x.entered c → Found ((b, found) :: x.entered) c :=
      fun c hc ↦ hc.mono fun e he ↦ List.mem_cons_of_mem _ he
    have hfound : Found ((b, found) :: x.entered) b := hmono b (h.found b (by simp))
    intro c hc
    rcases List.mem_append.mp hc with hc | hc
    · rcases List.mem_cons.mp hc with rfl | hc
      · exact hfound
      · exact hmono c (h.found c (List.mem_append_left _ hc))
    · rcases mem_or_of_mem_discover hc with hp | hf
      · exact hmono c (h.found c (by simp [hp]))
      · exact .edge hfound (by simp) hf
  case returning =>
    rw [Explored.returning_enter, List.map_cons, List.filter_cons, h.returning]
  case exits =>
    rw [Explored.exits_enter, List.map_cons, List.filter_cons, h.exits]

/-- Wherever a block goes on to, whatever a ground there is for deciding its condition, has been
entered too. -/
theorem Exploring.mem_of_taken {block : Block} (h : Exploring D blocks [] unfound x)
    (hb : b ∈ x.entered.map Prod.fst) (hblock : blocks[b]? = some block)
    (hc : ∀ decision, (∀ cond x y v, block.terminator = .branch cond x y → decision = some v →
      D cond v) → c ∈ taken blocks.length block.terminator decision) :
    c ∈ x.entered.map Prod.fst := by
  obtain ⟨⟨_, found⟩, hmem, rfl⟩ := List.mem_map.mp hb
  obtain ⟨block', hblock', decision, hdecision, rfl⟩ := h.grounded _ _ hmem
  obtain rfl := Option.some.inj (hblock.symm.trans hblock')
  have hclosed := h.closed _ _ hmem c (hc decision hdecision)
  rwa [List.append_nil] at hclosed

section Yields

variable {σ : Type} {I : σ → Prop} {decide : Operand → StateM σ (Option Bool)}
  (hdecide : ∀ cond, Yields I (fun d ↦ ∀ v, d = some v → D cond v) (decide cond))
include hdecide

/-- The edges of a block have a ground where the decisions have. -/
theorem targets_yields : Yields I (Grounded D size t) (targets decide size t) := by
  cases t with
  | branch cond thenBlock elseBlock =>
    refine (hdecide cond).bind fun decision hd ↦ .pure ⟨decision, ?_, rfl⟩
    rintro _ _ _ v ⟨⟩ hv
    exact hd v hv
  | jump | ret | panic => exact .pure ⟨none, fun _ _ _ _ h ↦ by simp at h, rfl⟩

/-- An exploration goes on until no block is pending. -/
theorem explore_yields (h : Exploring D blocks pending unfound x) :
    Yields I (fun x ↦ ∃ unfound, Exploring D blocks [] unfound x)
      (explore decide blocks pending unfound x) := by
  induction hn : pending.length + unfound.length using Nat.strongRecOn
    generalizing pending unfound x with
  | ind n ih =>
    rw [explore.eq_def]
    split
    · exact .pure ⟨unfound, h⟩
    · next b pending =>
      have hlt : b < blocks.length := List.mem_range.mp (h.known.mem_iff.mp (by simp))
      have hb := List.getElem?_eq_getElem hlt
      simp only [hb]
      refine (targets_yields hdecide).bind fun found hfound ↦ ?_
      refine ih _ ?_ (hb ▸ h.enter hb hfound) rfl
      rw [length_discover, ← hn, List.length_cons]
      omega

/-- What is built is the graph of an exploration that has come to its end. -/
theorem build_yields (f : Function) :
    Yields I (fun g ↦ ∃ x unfound, g = ofExplored f.blocks x ∧
      Exploring D f.blocks [] unfound x) (build decide f) := by
  unfold build
  cases hblocks : f.blocks with
  | nil => exact .pure ⟨_, [], rfl, by constructor <;> simp⟩
  | cons block rest =>
    have hstart : Exploring D (block :: rest) [0] ((List.range (block :: rest).length).erase 0)
        ⟨[], [], []⟩ := .start (by simp)
    exact (explore_yields hdecide hstart).bind fun x ⟨unfound, h⟩ ↦ .pure ⟨x, unfound, rfl, h⟩

end Yields

/-- Any way to decide conditions will do where nothing is asked of the decisions. -/
theorem decide_yields {σ : Type} (decide : Operand → StateM σ (Option Bool)) (cond : Operand) :
    Yields (fun _ ↦ True) (fun d ↦ ∀ v, d = some v → True) (decide cond) :=
  fun _ _ ↦ ⟨fun _ _ ↦ trivial, trivial⟩

/-- The edges of the block at a position; none if there is no block. -/
def edgesAt {m : Type → Type} [Monad m] (decide : Operand → m (Option Bool)) (blocks : List Block)
    (b : Nat) : m (List Nat) :=
  match blocks[b]? with
  | some block => targets decide blocks.length block.terminator
  | none => pure []

/-- A pending block is entered, and so are the blocks found through it. -/
theorem explore_cons {m : Type → Type} [Monad m] (decide : Operand → m (Option Bool))
    (blocks : List Block) (b : Nat) (pending unfound : List Nat) (x : Explored) :
    explore decide blocks (b :: pending) unfound x =
      edgesAt decide blocks b >>= fun found ↦ explore decide blocks
        (discover found pending unfound).1 (discover found pending unfound).2
          (x.enter b (blocks[b]?.map Block.terminator) found) := by
  rw [explore.eq_def]
  unfold edgesAt
  dsimp only
  cases blocks[b]? <;> rfl

section Lockstep

variable {m n : Type → Type} [Monad m] [Monad n] {P : ∀ ⦃α : Type⦄, m α → n α → Prop}
  (hP : Lockstep P) {decide : Operand → m (Option Bool)} {decide' : Operand → n (Option Bool)}
include hP

/-- The edges of a block are found in lockstep if its condition is decided so. -/
theorem targets_lockstep (h : ∀ cond x y, t = .branch cond x y → P (decide cond) (decide' cond)) :
    P (targets decide size t) (targets decide' size t) := by
  cases t with
  | branch cond x y => exact hP.bind (h cond x y rfl) fun _ ↦ hP.pure _
  | jump | ret | panic => exact hP.pure _

variable (hdecide : ∀ cond, P (decide cond) (decide' cond))
include hdecide

/-- Blocks are explored in lockstep if conditions are decided so. -/
theorem explore_lockstep (blocks : List Block) (pending unfound : List Nat) (x : Explored) :
    P (explore decide blocks pending unfound x) (explore decide' blocks pending unfound x) := by
  -- by the number of blocks that are still to be entered
  induction hn : pending.length + unfound.length using Nat.strongRecOn
    generalizing pending unfound x with
  | ind n ih =>
    cases pending with
    | nil =>
      rw [explore, explore]
      exact hP.pure _
    | cons b pending =>
      have hedges : P (edgesAt decide blocks b) (edgesAt decide' blocks b) := by
        unfold edgesAt
        split
        · exact targets_lockstep hP fun cond _ _ _ ↦ hdecide cond
        · exact hP.pure _
      rw [explore_cons, explore_cons]
      refine hP.bind hedges fun found ↦ ih _ ?_ _ _ _ rfl
      rw [length_discover, ← hn, List.length_cons]
      omega

/-- Flow graphs are built in lockstep if conditions are decided so. -/
theorem build_lockstep (f : Function) : P (build decide f) (build decide' f) := by
  unfold build
  split
  · exact hP.bind (hP.pure _) fun _ ↦ hP.pure _
  · exact hP.bind (explore_lockstep hP hdecide _ _ _ _) fun _ ↦ hP.pure _

end Lockstep

section Congruence

variable {σ : Type} {I : σ → Prop} {decide decide' : Operand → StateM σ (Option Bool)}
  {blocks' : List Block}

/-- What has been entered stays entered. -/
theorem mem_explore {e : Nat × List Nat} (he : e ∈ x.entered) (s : σ) :
    e ∈ (explore decide blocks pending unfound x s).1.entered := by
  induction hn : pending.length + unfound.length using Nat.strongRecOn
    generalizing pending unfound x s with
  | ind n ih =>
    cases pending with
    | nil =>
      rw [explore]
      exact he
    | cons b pending =>
      rw [explore_cons]
      refine ih _ ?_ (Explored.entered_enter _ ▸ List.mem_cons_of_mem _ he) _ rfl
      rw [length_discover, ← hn, List.length_cons]
      omega

variable (hlength : blocks'.length = blocks.length)
  (hterminator : ∀ c : Nat, blocks'[c]?.map Block.terminator = blocks[c]?.map Block.terminator)
include hlength hterminator

/-- The edges of blocks that end alike are the same if the condition is decided alike. -/
theorem edgesAt_coincide (h : ∀ block cond x y, blocks[b]? = some block →
    block.terminator = .branch cond x y → Coincide I (decide cond) (decide' cond)) :
    Coincide I (edgesAt decide blocks b) (edgesAt decide' blocks' b) := by
  have hterm := hterminator b
  unfold edgesAt
  cases hb : blocks[b]? with
  | none =>
    rw [hb, Option.map_none, Option.map_eq_none_iff] at hterm
    rw [hterm]
    exact .pure _
  | some block =>
    rw [hb] at hterm
    obtain ⟨block', hb', hterm⟩ := Option.map_eq_some_iff.mp hterm
    rw [hb']
    dsimp only
    rw [hterm, hlength]
    exact targets_lockstep Coincide.lockstep fun cond x y hcond ↦ h block cond x y hb hcond

/-- Blocks that end alike are explored alike, if the conditions of those that are entered are
decided alike. -/
theorem explore_congr {s : σ} (hs : I s)
    (hdecide : ∀ c ∈ (explore decide blocks pending unfound x s).1.entered.map Prod.fst,
      ∀ block cond x y, blocks[c]? = some block → block.terminator = .branch cond x y →
        Coincide I (decide cond) (decide' cond)) :
    explore decide blocks pending unfound x s =
      explore decide' blocks' pending unfound x s := by
  induction hn : pending.length + unfound.length using Nat.strongRecOn
    generalizing pending unfound x s with
  | ind n ih =>
    cases pending with
    | nil => rw [explore, explore]
    | cons b pending =>
      rw [explore_cons] at hdecide ⊢
      rw [explore_cons, hterminator b]
      have hentered : b ∈ ((edgesAt decide blocks b >>= fun found ↦ explore decide blocks
          (discover found pending unfound).1 (discover found pending unfound).2
            (x.enter b (blocks[b]?.map Block.terminator) found)) s).1.entered.map Prod.fst :=
        List.mem_map_of_mem (mem_explore (Explored.entered_enter _ ▸ List.mem_cons_self) _)
      obtain ⟨heq, hI⟩ := edgesAt_coincide hlength hterminator (hdecide b hentered) s hs
      let next (decide : Operand → StateM σ (Option Bool)) (blocks' : List Block)
          (edges : List Nat × σ) : Explored × σ :=
        explore decide blocks' (discover edges.1 pending unfound).1
          (discover edges.1 pending unfound).2
          (x.enter b (blocks[b]?.map Block.terminator) edges.1) edges.2
      change next decide blocks (edgesAt decide blocks b s) =
        next decide' blocks' (edgesAt decide' blocks' b s)
      rw [← heq]
      refine ih _ ?_ hI hdecide rfl
      rw [length_discover, ← hn, List.length_cons]
      omega

omit hlength hterminator in
/-- A block that has been entered is reachable. -/
theorem isReachable_of_mem_entered (hlt : b < blocks.length) (h : b ∈ x.entered.map Prod.fst) :
    (ofExplored blocks x).isReachable b := by
  obtain ⟨e, hmem, rfl⟩ := List.mem_map.mp h
  have hsome : (x.entered.lookup e.1).isSome := List.lookup_isSome_iff.mpr ⟨e, hmem, by simp⟩
  simpa [isReachable, ofExplored, List.getD_eq_getElem?_getD, hlt] using hsome

omit hlength hterminator in
/-- The graph of a function with blocks is found by exploring them from the entry. -/
theorem build_of_ne_nil {f : Function} (h : f.blocks ≠ []) : build decide f = (do
    let x ← explore decide f.blocks [0] ((List.range f.blocks.length).erase 0) ⟨[], [], []⟩
    return ofExplored f.blocks x) := by
  unfold build
  split
  · next hnil => exact absurd hnil h
  · rfl

omit hlength hterminator in
/-- Functions whose blocks end alike have the same flow graph, if the conditions of its reachable
blocks are decided alike. -/
theorem build_congr {f f' : Function} (hlength : f'.blocks.length = f.blocks.length)
    (hterminator : ∀ c : Nat,
      f'.blocks[c]?.map Block.terminator = f.blocks[c]?.map Block.terminator)
    {s : σ} (hs : I s) (hdecide : ∀ c, (build decide f s).1.isReachable c →
      ∀ block cond x y, f.blocks[c]? = some block → block.terminator = .branch cond x y →
        Coincide I (decide cond) (decide' cond)) :
    build decide f s = build decide' f' s := by
  by_cases hnil : f.blocks = []
  · have hnil' : f'.blocks = [] := by
      rwa [hnil, List.length_nil, List.length_eq_zero_iff] at hlength
    unfold build
    rw [hnil, hnil']
  · have hnil' : f'.blocks ≠ [] := by
      intro h
      rw [h, List.length_nil, eq_comm, List.length_eq_zero_iff] at hlength
      exact hnil hlength
    rw [build_of_ne_nil hnil] at hdecide ⊢
    rw [build_of_ne_nil hnil', hlength]
    have hexplored := explore_congr hlength hterminator hs fun c hc block cond x y hb ↦
      hdecide c (isReachable_of_mem_entered (List.getElem?_eq_some_iff.mp hb).1 hc) block cond x y
        hb
    change (ofExplored f.blocks (explore decide f.blocks _ _ _ s).1, _) =
      (ofExplored f'.blocks (explore decide' f'.blocks _ _ _ s).1, _)
    rw [hexplored, ofExplored, ofExplored, hlength]

end Congruence
end Wiring.FlowGraph
