import Mathlib.Data.List.Nodup
import Wiring.Flow.Dominators
import Wiring.Proofs.Flow.Search

/-!
# The dominator tree is exact

The rounds keep a tree in which whatever dominates a block is among its ancestors; they only ever
move ancestors away; and where they come to rest the ancestors of a block are on every path to it.
That a round never brings back an ancestor rests on the order in which it goes over the blocks: each
block comes after one of its predecessors.
-/

namespace Wiring.Flow

/-- An order of the blocks that can be reached from the entry, as a depth-first search gives it. -/
structure SearchOrder (g : Table) (order : List Nat) : Prop where
  inRange : g.InRange
  nodup : order.Nodup
  mem_iff : ∀ b, b ∈ order ↔ g.Reaches 0 b
  entry_first : order.idxOf 0 = 0
  earlier : ∀ b ∈ order, b ≠ 0 → ∃ p ∈ order, b ∈ g.successors p ∧ order.idxOf p < order.idxOf b
  /-- Edges start in blocks that can be reached. -/
  source : ∀ b, ∀ c ∈ g.successors b, b ∈ order

namespace SearchOrder

variable {g : Table} {order : List Nat} {a b c : Nat}

/-- The order of a depth-first search is one, if blocks that cannot be reached have no edges. -/
theorem of_search (hg : g.InRange) (hlen : 0 < g.length)
    (hs : ∀ b, ∀ c ∈ g.successors b, g.Reaches 0 b) : SearchOrder g (g.orderFrom 0) where
  inRange := hg
  nodup := Table.nodup_orderFrom hg
  mem_iff b := Table.mem_orderFrom hg
  entry_first := by
    obtain ⟨l, hl⟩ := List.head?_eq_some_iff.mp (Table.head?_orderFrom hg hlen)
    simp [hl]
  earlier b hb hne := Table.exists_earlier hg hb hne
  source b c hc := (Table.mem_orderFrom hg).mpr (hs b c hc)

/-- A block after another is not the entry. -/
theorem ne_entry (h : SearchOrder g order) (hab : order.idxOf a < order.idxOf b) : b ≠ 0 := by
  rintro rfl
  rw [h.entry_first] at hab
  exact Nat.not_lt_zero _ hab

/-- An edge into a dominated block comes from a block that is dominated too. -/
theorem dominates_pred (h : SearchOrder g order) (hd : g.Dominates a c) (hne : a ≠ c)
    (hc : c ∈ g.successors b) : g.Dominates a b :=
  hd.of_edge ((h.mem_iff b).mp (h.source b c hc)) hc hne

/-- What dominates a block does not come after it. -/
theorem idxOf_le_of_dominates (h : SearchOrder g order) (hd : g.Dominates a b) :
    order.idxOf a ≤ order.idxOf b := by
  induction hn : order.idxOf b using Nat.strongRecOn generalizing b with
  | ind n ih =>
    by_cases hab : a = b
    · exact hab ▸ hn.le
    · have hb : b ∈ order := (h.mem_iff b).mpr hd.2.1
      have hb0 : b ≠ 0 := fun h0 ↦ hab (h0 ▸ (h0 ▸ hd).eq_entry)
      obtain ⟨p, hp, hbp, hlt⟩ := h.earlier b hb hb0
      have hle := ih (order.idxOf p) (hn ▸ hlt) (h.dominates_pred hd hab hbp) rfl
      omega

end SearchOrder

namespace DominatorTree

variable {g : Table} {order : List Nat} {t s : DominatorTree} {a b c d p : Nat}

/-! ### Ancestors -/

/-- A tree with one parent replaced. -/
theorem parent?_set (x : Nat) (v : Option Nat) :
    parent? (t.set x v) b = if b = x ∧ x < t.length then v else t.parent? b := by
  unfold parent?
  rw [List.getD_eq_getElem?_getD, List.getD_eq_getElem?_getD, List.getElem?_set]
  by_cases hx : x = b
  · subst hx
    by_cases hlt : x < t.length <;> simp [hlt]
  · simp [hx, Ne.symm hx]

/-- A block is its own ancestor. -/
theorem mem_ancestors_self : b ∈ t.ancestors order b := by
  rw [ancestors]
  split
  · split <;> simp
  · simp

/-- The other ancestors are those of the parent. -/
theorem mem_ancestors_of_parent (hp : t.parent? b = some p)
    (hlt : order.idxOf p < order.idxOf b) :
    a ∈ t.ancestors order b ↔ a = b ∨ a ∈ t.ancestors order p := by
  rw [ancestors]
  simp [hp, hlt]

/-- A block without an earlier parent has no other ancestors. -/
theorem eq_of_mem_ancestors (h : ∀ p, t.parent? b = some p → ¬ order.idxOf p < order.idxOf b)
    (ha : a ∈ t.ancestors order b) : a = b := by
  rw [ancestors] at ha
  split at ha
  · next p hp => simpa [h p hp] using ha
  · simpa using ha

/-- Ancestors come no later in the order. -/
theorem idxOf_le (ha : a ∈ t.ancestors order b) : order.idxOf a ≤ order.idxOf b := by
  fun_induction ancestors order t b with
  | case1 b p hp hlt ih =>
    rcases List.mem_cons.mp ha with rfl | ha
    · exact Nat.le_refl _
    · exact (ih ha).trans hlt.le
  | case2 b p hp hlt => simp_all
  | case3 b hp => simp_all

/-- Ancestors of ancestors are ancestors. -/
theorem ancestors_trans (hab : a ∈ t.ancestors order b) (hbc : b ∈ t.ancestors order c) :
    a ∈ t.ancestors order c := by
  fun_induction ancestors order t c with
  | case1 c p hp hlt ih =>
    rcases List.mem_cons.mp hbc with rfl | hbc
    · exact (mem_ancestors_of_parent hp hlt).mp hab |>.elim (by simp +contextual)
        (List.mem_cons_of_mem _)
    · exact List.mem_cons_of_mem _ (ih hbc)
  | case2 c p hp hlt =>
    obtain rfl := List.mem_singleton.mp hbc
    exact List.mem_singleton.mpr (eq_of_mem_ancestors (fun q hq ↦ by simp_all) hab)
  | case3 c hp =>
    obtain rfl := List.mem_singleton.mp hbc
    exact List.mem_singleton.mpr (eq_of_mem_ancestors (fun q hq ↦ by simp_all) hab)

/-- Of two ancestors of a block, the earlier is an ancestor of the later. -/
theorem ancestors_linear (ha : a ∈ t.ancestors order c) (hb : b ∈ t.ancestors order c)
    (hle : order.idxOf a ≤ order.idxOf b) : a ∈ t.ancestors order b := by
  fun_induction ancestors order t c with
  | case1 c p hp hlt ih =>
    rcases List.mem_cons.mp hb with rfl | hbp
    · exact (mem_ancestors_of_parent hp hlt).mpr (List.mem_cons.mp ha)
    · rcases List.mem_cons.mp ha with rfl | hap
      · have := idxOf_le hbp
        omega
      · exact ih hap hbp
  | case2 c p hp hlt =>
    obtain rfl := List.mem_singleton.mp hb
    exact (List.mem_singleton.mp ha) ▸ mem_ancestors_self
  | case3 c hp =>
    obtain rfl := List.mem_singleton.mp hb
    exact (List.mem_singleton.mp ha) ▸ mem_ancestors_self

/-! ### Trees on the way -/

/-- A tree in which parents come earlier than their children, and whatever dominates a block
dominates its parent. -/
structure Sound (g : Table) (order : List Nat) (t : DominatorTree) : Prop where
  length : t.length = g.length
  root : t.parent? 0 = some 0
  mem : ∀ b, (t.parent? b).isSome → b ∈ order
  /-- The blocks of the tree are the first ones of the order. -/
  initial : ∀ b, (t.parent? b).isSome → ∀ a ∈ order, order.idxOf a < order.idxOf b →
    (t.parent? a).isSome
  parent : ∀ b p, t.parent? b = some p → b ≠ 0 →
    order.idxOf p < order.idxOf b ∧ (t.parent? p).isSome ∧
      ∀ d, g.Dominates d b → d ≠ b → g.Dominates d p

namespace Sound

/-- Ancestors of a block in the tree are in the tree. -/
theorem isSome_of_mem (hs : Sound g order t) (ha : a ∈ t.ancestors order b)
    (hb : (t.parent? b).isSome) : (t.parent? a).isSome := by
  fun_induction ancestors order t b with
  | case1 b p hp hlt ih =>
    rcases List.mem_cons.mp ha with rfl | hap
    · exact hb
    · by_cases hb0 : b = 0
      · subst hb0
        obtain rfl : 0 = p := Option.some.inj (hs.root.symm.trans hp)
        exact absurd hlt (Nat.lt_irrefl _)
      · exact ih hap (hs.parent b p hp hb0).2.1
  | case2 b p hp hlt => exact (List.mem_singleton.mp ha) ▸ hb
  | case3 b hp => simp [hp] at hb

/-- In a sound tree all dominators are ancestors. -/
theorem mem_ancestors_of_dominates (hs : Sound g order t) (ho : SearchOrder g order)
    (hset : ∀ b ∈ order, (t.parent? b).isSome) (hd : g.Dominates d b) :
    d ∈ t.ancestors order b := by
  induction hn : order.idxOf b using Nat.strongRecOn generalizing b with
  | ind n ih =>
    by_cases hdb : d = b
    · exact hdb ▸ mem_ancestors_self
    · have hb0 : b ≠ 0 := fun h0 ↦ hdb (h0 ▸ (h0 ▸ hd).eq_entry)
      obtain ⟨p, hp⟩ := Option.isSome_iff_exists.mp (hset b ((ho.mem_iff b).mpr hd.2.1))
      obtain ⟨hlt, -, hdom⟩ := hs.parent b p hp hb0
      have hmem := ih (order.idxOf p) (hn ▸ hlt) (hdom d hd hdb) rfl
      exact (mem_ancestors_of_parent hp hlt).mpr (Or.inr hmem)

/-- The meet is the last common ancestor, and dominated by whatever dominates both blocks. -/
theorem meet_spec (hs : Sound g order t) (ho : SearchOrder g order)
    (ha : (t.parent? a).isSome) (hb : (t.parent? b).isSome) :
    (∀ d, d ∈ t.ancestors order (meet order t a b) ↔
      d ∈ t.ancestors order a ∧ d ∈ t.ancestors order b) ∧
    ∀ d, g.Dominates d a → g.Dominates d b → g.Dominates d (meet order t a b) := by
  fun_induction meet order t a b with
  | case1 a b hlt p hp hpa ih =>
    obtain ⟨-, hpset, hdom⟩ := hs.parent a p hp (ho.ne_entry hlt)
    obtain ⟨hmem, hmeet⟩ := ih hpset hb
    refine ⟨fun d ↦ ?_, fun d hda hdb ↦ ?_⟩
    · rw [hmem, mem_ancestors_of_parent hp hpa]
      constructor
      · exact fun h ↦ ⟨Or.inr h.1, h.2⟩
      · rintro ⟨rfl | hd, hdb⟩
        · have := idxOf_le hdb
          omega
        · exact ⟨hd, hdb⟩
    · have hle := ho.idxOf_le_of_dominates hdb
      have hne : d ≠ a := by rintro rfl; omega
      exact hmeet d (hdom d hda hne) hdb
  | case2 a b hlt p hp hpa =>
    exact absurd (hs.parent a p hp (ho.ne_entry hlt)).1 hpa
  | case3 a b hlt hp => simp [hp] at ha
  | case4 a b hge hlt p hp hpb ih =>
    obtain ⟨-, hpset, hdom⟩ := hs.parent b p hp (ho.ne_entry hlt)
    obtain ⟨hmem, hmeet⟩ := ih ha hpset
    refine ⟨fun d ↦ ?_, fun d hda hdb ↦ ?_⟩
    · rw [hmem, mem_ancestors_of_parent hp hpb]
      constructor
      · exact fun h ↦ ⟨h.1, Or.inr h.2⟩
      · rintro ⟨hda, rfl | hd⟩
        · have := idxOf_le hda
          omega
        · exact ⟨hda, hd⟩
    · have hle := ho.idxOf_le_of_dominates hda
      have hne : d ≠ b := by rintro rfl; omega
      exact hmeet d hda (hdom d hdb hne)
  | case5 a b hge hlt p hp hpb =>
    exact absurd (hs.parent b p hp (ho.ne_entry hlt)).1 hpb
  | case6 a b hge hlt hp => simp [hp] at hb
  | case7 a b hge hle =>
    have hab : a = b := (List.idxOf_inj (hs.mem a ha)).mp (by omega)
    subst hab
    simp

/-- The meet of two blocks of the tree is in the tree. -/
theorem isSome_meet (hs : Sound g order t) (ho : SearchOrder g order)
    (ha : (t.parent? a).isSome) (hb : (t.parent? b).isSome) :
    (t.parent? (meet order t a b)).isSome :=
  hs.isSome_of_mem (((hs.meet_spec ho ha hb).1 _).mp mem_ancestors_self).1 ha

end Sound

/-! ### The parent of a block -/

/-- Predecessors are the blocks with an edge to the block. -/
theorem mem_predecessors : p ∈ predecessors g b ↔ b ∈ g.successors p := by
  unfold predecessors Table.successors
  rw [List.mem_filter, List.mem_range, List.contains_iff_mem, and_iff_right_iff_imp]
  intro h
  by_contra hlt
  simp [List.getD_eq_getElem?_getD, List.getElem?_eq_none (not_lt.mp hlt)] at h

private theorem foldl_meet (hs : Sound g order t) (ho : SearchOrder g order) (l : List Nat) :
    ∀ q, (t.parent? q).isSome → (∀ p ∈ l, (t.parent? p).isSome) →
      ∃ c, l.foldl (fun found p ↦ match found with
          | none => some p
          | some q => some (meet order t q p)) (some q) = some c ∧
        (t.parent? c).isSome ∧
        (∀ d, d ∈ t.ancestors order c ↔
          d ∈ t.ancestors order q ∧ ∀ p ∈ l, d ∈ t.ancestors order p) ∧
        ∀ d, g.Dominates d q → (∀ p ∈ l, g.Dominates d p) → g.Dominates d c := by
  induction l with
  | nil => exact fun q hq _ ↦ ⟨q, rfl, hq, by simp, fun d hd _ ↦ hd⟩
  | cons p l ih =>
    intro q hq hl
    have hp : (t.parent? p).isSome := hl p (by simp)
    obtain ⟨hmem, hdom⟩ := hs.meet_spec ho hq hp
    obtain ⟨c, hc, hset, hanc, hcd⟩ :=
      ih (meet order t q p) (hs.isSome_meet ho hq hp) fun r hr ↦ hl r (List.mem_cons_of_mem _ hr)
    refine ⟨c, hc, hset, fun d ↦ ?_, fun d hdq hdl ↦ ?_⟩
    · rw [hanc, hmem, List.forall_mem_cons, and_assoc]
    · exact hcd d (hdom d hdq (hdl p (by simp))) fun r hr ↦ hdl r (List.mem_cons_of_mem _ hr)

/-- The parent that a round gives to a block with a predecessor in the tree: its ancestors are those
that the predecessors in the tree have in common. -/
theorem Sound.common_spec (hs : Sound g order t) (ho : SearchOrder g order)
    (hp : b ∈ g.successors p) (hset : (t.parent? p).isSome) :
    ∃ c, common g order t b = some c ∧ (t.parent? c).isSome ∧
      (∀ d, d ∈ t.ancestors order c ↔
        ∀ q, b ∈ g.successors q → (t.parent? q).isSome → d ∈ t.ancestors order q) ∧
      ∀ d, g.Dominates d b → d ≠ b → g.Dominates d c := by
  have hmem (q : Nat) : q ∈ (predecessors g b).filter (fun p ↦ (t.parent? p).isSome) ↔
      b ∈ g.successors q ∧ (t.parent? q).isSome := by
    rw [List.mem_filter, mem_predecessors]
  unfold common
  generalize (predecessors g b).filter (fun p ↦ (t.parent? p).isSome) = l at hmem ⊢
  cases l with
  | nil => exact absurd ((hmem p).mpr ⟨hp, hset⟩) (by simp)
  | cons q l =>
    have hq := (hmem q).mp (by simp)
    obtain ⟨c, hc, hcset, hanc, hdom⟩ := foldl_meet hs ho l q hq.2 fun r hr ↦
      ((hmem r).mp (List.mem_cons_of_mem _ hr)).2
    refine ⟨c, hc, hcset, fun d ↦ ?_, fun d hd hne ↦ ?_⟩
    · rw [hanc, ← List.forall_mem_cons (p := fun p ↦ d ∈ t.ancestors order p)]
      constructor
      · exact fun h r hr hrs ↦ h r ((hmem r).mpr ⟨hr, hrs⟩)
      · exact fun h r hr ↦ h r ((hmem r).mp hr).1 ((hmem r).mp hr).2
    · have hpred (r : Nat) (hr : r ∈ q :: l) : g.Dominates d r :=
        ho.dominates_pred hd hne ((hmem r).mp hr).1
      exact hdom d (hpred q (by simp)) fun r hr ↦ hpred r (List.mem_cons_of_mem _ hr)

/-! ### Replacing a parent -/

/-- Blocks that do not have the changed block as an ancestor keep their ancestors. -/
theorem ancestors_set_of_notMem {x : Nat} {v : Option Nat} (hb : x ∉ t.ancestors order b) :
    ancestors order (t.set x v) b = t.ancestors order b := by
  fun_induction ancestors order t b with
  | case1 b p hp hpb ih =>
    rw [List.mem_cons, not_or] at hb
    have hp' : parent? (t.set x v) b = some p := by
      rw [parent?_set, if_neg (fun h ↦ hb.1 h.1.symm), hp]
    rw [ancestors, hp']
    simp only [hpb, ↓reduceIte]
    rw [ih hb.2]
  | case2 b p hp hpb =>
    have hp' : parent? (t.set x v) b = some p := by
      rw [parent?_set, if_neg (fun h ↦ hb (by simp [h.1])), hp]
    rw [ancestors, hp']
    simp [hpb]
  | case3 b hp =>
    have hp' : parent? (t.set x v) b = none := by
      rw [parent?_set, if_neg (fun h ↦ hb (by simp [h.1])), hp]
    rw [ancestors, hp']

/-- Blocks before the changed block keep their ancestors. -/
theorem ancestors_set_of_lt {x : Nat} {v : Option Nat} (hb : order.idxOf b < order.idxOf x) :
    ancestors order (t.set x v) b = t.ancestors order b :=
  ancestors_set_of_notMem fun h ↦ absurd (idxOf_le h) (by omega)

section Raise

variable {x : Nat} (hx : x < t.length) (hlt : order.idxOf c < order.idxOf x)
include hlt

private theorem unmoved (hc : c ∈ t.ancestors order x)
    (hb : ∀ p, t.parent? b = some p → ¬ order.idxOf p < order.idxOf b)
    (ha : a ∈ ancestors order (t.set x (some c)) b) : a = b := by
  have hbx : x ∉ t.ancestors order b := by
    intro hmem
    obtain rfl := eq_of_mem_ancestors hb hmem
    obtain rfl := eq_of_mem_ancestors hb hc
    exact absurd hlt (Nat.lt_irrefl _)
  rw [ancestors_set_of_notMem hbx] at ha
  exact eq_of_mem_ancestors hb ha

include hx

/-- The ancestors of the changed block are those of its new parent. -/
theorem mem_ancestors_set_self :
    a ∈ ancestors order (t.set x (some c)) x ↔ a = x ∨ a ∈ t.ancestors order c := by
  have hp : parent? (t.set x (some c)) x = some c := by simp [parent?_set, hx]
  rw [mem_ancestors_of_parent hp hlt, ancestors_set_of_lt hlt]

/-- Moving a block up to one of its ancestors only takes ancestors away. -/
theorem ancestors_set_subset (hc : c ∈ t.ancestors order x)
    (ha : a ∈ ancestors order (t.set x (some c)) b) : a ∈ t.ancestors order b := by
  fun_induction ancestors order t b with
  | case1 b p hp hpb ih =>
    by_cases hbx : b = x
    · subst hbx
      have hcp := ((mem_ancestors_of_parent hp hpb).mp hc).resolve_left (by rintro rfl; omega)
      rcases (mem_ancestors_set_self hx hlt).mp ha with rfl | hac
      · simp
      · exact List.mem_cons_of_mem _ (ancestors_trans hac hcp)
    · have hp' : parent? (t.set x (some c)) b = some p := by
        rw [parent?_set, if_neg (fun h ↦ hbx h.1), hp]
      rcases (mem_ancestors_of_parent hp' hpb).mp ha with rfl | hap
      · simp
      · exact List.mem_cons_of_mem _ (ih hap)
  | case2 b p hp hpb => exact List.mem_singleton.mpr (unmoved hlt hc (fun q hq ↦ by simp_all) ha)
  | case3 b hp => exact List.mem_singleton.mpr (unmoved hlt hc (fun q hq ↦ by simp_all) ha)

end Raise

/-! ### One round -/

theorem eq_of_parent? (hl : t.length = s.length)
    (h : ∀ b, t.parent? b = s.parent? b) : t = s := by
  apply List.ext_getElem hl
  intro b hbt hbs
  simpa [parent?, List.getD_eq_getElem?_getD, List.getElem?_eq_getElem hbt,
    List.getElem?_eq_getElem hbs] using h b

/-- Trees that agree on the blocks after some ancestor agree on that ancestor. -/
private theorem mem_ancestors_of_agree
    (h : ∀ e, order.idxOf a < order.idxOf e → s.parent? e = t.parent? e)
    (ha : a ∈ t.ancestors order b) : a ∈ s.ancestors order b := by
  fun_induction ancestors order t b with
  | case1 b p hp hpb ih =>
    rcases List.mem_cons.mp ha with rfl | hap
    · exact mem_ancestors_self
    · have hps : s.parent? b = some p := by rw [h b ((idxOf_le hap).trans_lt hpb), hp]
      exact (mem_ancestors_of_parent hps hpb).mpr (Or.inr (ih hap))
  | case2 b p hp hpb => exact (List.mem_singleton.mp ha) ▸ mem_ancestors_self
  | case3 b hp => exact (List.mem_singleton.mp ha) ▸ mem_ancestors_self

/-- The ancestors of a block's parent are common to its predecessors in the tree, and nothing else
is; only predecessors after the block may have lost some of them since. -/
def Settled (g : Table) (order : List Nat) (t : DominatorTree) (b : Nat) : Prop :=
  ∀ p, t.parent? b = some p →
    (∀ q, b ∈ g.successors q → (t.parent? q).isSome → order.idxOf q < order.idxOf b →
      p ∈ t.ancestors order q) ∧
    ∀ d, (∀ q, b ∈ g.successors q → (t.parent? q).isSome → d ∈ t.ancestors order q) →
      d ∈ t.ancestors order p

/-- A round that started with one tree has come to another; it has dealt with the blocks before some
place in the order. -/
structure Midway (g : Table) (order : List Nat) (t s : DominatorTree) (k : Nat) : Prop where
  sound : Sound g order s
  found : ∀ b ∈ order, order.idxOf b < k → (s.parent? b).isSome
  later : ∀ b, k ≤ order.idxOf b → s.parent? b = t.parent? b
  raised : ∀ b p, t.parent? b = some p →
    ∃ q, s.parent? b = some q ∧ order.idxOf q ≤ order.idxOf p
  shrunk : ∀ b, (t.parent? b).isSome → ∀ a ∈ s.ancestors order b, a ∈ t.ancestors order b
  /-- What a block has lost, the blocks that were below it have lost too. -/
  kept : ∀ b, (t.parent? b).isSome → ∀ z ∈ t.ancestors order b, ∀ a ∈ s.ancestors order b,
    order.idxOf a ≤ order.idxOf z → a ∈ s.ancestors order z
  settled : ∀ b, order.idxOf b < k → b ≠ 0 → Settled g order s b
  /-- As long as nothing changes, each block has the parent that its predecessors give it. -/
  resting : (∀ b, s.parent? b = t.parent? b) → ∀ b ∈ order, order.idxOf b < k → b ≠ 0 →
    s.parent? b = common g order s b

/-- A round starts behind the entry. -/
theorem Midway.start (hs : Sound g order t) (ho : SearchOrder g order) :
    Midway g order t t 1 where
  sound := hs
  found b hb hlt := by
    have hb0 : b = 0 := (List.idxOf_inj hb).mp (by rw [ho.entry_first]; omega)
    simp [hb0, hs.root]
  later b _ := rfl
  raised b p hp := ⟨p, hp, Nat.le_refl _⟩
  shrunk b _ a ha := ha
  kept b _ z hz a ha hle := ancestors_linear ha hz hle
  settled b hlt hb0 p hp := by
    have := (hs.parent b p hp hb0).1
    omega
  resting _ b hb hlt hb0 := by
    refine absurd ((List.idxOf_inj hb).mp ?_) hb0
    rw [ho.entry_first]
    omega

/-- What is in the tree stays in it. -/
theorem Midway.isSome {k : Nat} (h : Midway g order t s k) (hb : (t.parent? b).isSome) :
    (s.parent? b).isSome := by
  obtain ⟨p, hp⟩ := Option.isSome_iff_exists.mp hb
  obtain ⟨q, hq, -⟩ := h.raised b p hp
  simp [hq]

/-- The block may be moved under another one in the tree: before it in the order, and an ancestor of
its parent if it has one, whose ancestors are those that the predecessors have in common. -/
structure Move (g : Table) (order : List Nat) (s : DominatorTree) (x c : Nat) : Prop where
  mem : x ∈ order
  ne_entry : x ≠ 0
  isSome : (s.parent? c).isSome
  earlier : order.idxOf c < order.idxOf x
  ancestors_iff : ∀ d, d ∈ s.ancestors order c ↔
    ∀ q, x ∈ g.successors q → (s.parent? q).isSome → d ∈ s.ancestors order q
  dominates : ∀ d, g.Dominates d x → d ≠ x → g.Dominates d c
  up : ∀ p, s.parent? x = some p → c ∈ s.ancestors order p

namespace Move

variable {x : Nat} (hm : Move g order s x c)

/-- Other blocks keep their parents. -/
theorem parent?_of_ne (hb : b ≠ x) : parent? (s.set x (some c)) b = s.parent? b := by
  rw [parent?_set, if_neg (fun h ↦ hb h.1)]

variable (ho : SearchOrder g order) (hs : Sound g order s)
include hm ho hs

/-- The block is one of the tree's. -/
theorem lt_length : x < s.length := by
  rw [hs.length]
  obtain ⟨p, hp⟩ := (ho.mem_iff x).mp hm.mem
  exact hp.lt ho.inRange

/-- The block gets its new parent. -/
theorem parent?_self : parent? (s.set x (some c)) x = some c := by
  simp [parent?_set, hm.lt_length ho hs]

/-- What is in the tree stays in it. -/
theorem isSome_set (hb : (s.parent? b).isSome) : (parent? (s.set x (some c)) b).isSome := by
  by_cases hbx : b = x
  · rw [hbx, hm.parent?_self ho hs]
    rfl
  · rwa [parent?_of_ne hbx]

/-- No ancestor comes back, whether the block was in the tree or not. -/
theorem ancestors_subset (hb : (s.parent? b).isSome)
    (ha : a ∈ ancestors order (s.set x (some c)) b) : a ∈ s.ancestors order b := by
  cases hy : s.parent? x with
  | some y =>
    have hxy := hs.parent x y hy hm.ne_entry
    have hcx := (mem_ancestors_of_parent hy hxy.1).mpr (Or.inr (hm.up y hy))
    exact ancestors_set_subset (hm.lt_length ho hs) hm.earlier hcx ha
  | none =>
    have hnot : x ∉ s.ancestors order b := fun hmem ↦ by
      simpa [hy] using hs.isSome_of_mem hmem hb
    rwa [ancestors_set_of_notMem hnot] at ha

/-- The tree stays sound if every block before the one that moves is in it. -/
theorem sound (hfound : ∀ b ∈ order, order.idxOf b < order.idxOf x → (s.parent? b).isSome) :
    Sound g order (s.set x (some c)) where
  length := by simpa using hs.length
  root := by rw [parent?_of_ne hm.ne_entry.symm, hs.root]
  mem b hb := by
    by_cases hbx : b = x
    · exact hbx ▸ hm.mem
    · exact hs.mem b (parent?_of_ne hbx ▸ hb)
  initial b hb a ha hab := by
    by_cases hbx : b = x
    · exact hm.isSome_set ho hs (hfound a ha (hbx ▸ hab))
    · exact hm.isSome_set ho hs (hs.initial b (parent?_of_ne hbx ▸ hb) a ha hab)
  parent b p hp hb0 := by
    by_cases hbx : b = x
    · subst hbx
      obtain rfl : c = p := Option.some.inj ((hm.parent?_self ho hs).symm.trans hp)
      exact ⟨hm.earlier, hm.isSome_set ho hs hm.isSome, hm.dominates⟩
    · obtain ⟨hlt, hset, hd⟩ := hs.parent b p (parent?_of_ne hbx ▸ hp) hb0
      exact ⟨hlt, hm.isSome_set ho hs hset, hd⟩

/-- The block that has moved is settled. -/
theorem settled_self : Settled g order (s.set x (some c)) x := by
  intro p hp
  obtain rfl : c = p := Option.some.inj ((hm.parent?_self ho hs).symm.trans hp)
  refine ⟨fun q hq hqs hqx ↦ ?_, fun d hd ↦ ?_⟩
  · rw [parent?_of_ne (by rintro rfl; omega)] at hqs
    rw [ancestors_set_of_lt hqx]
    exact (hm.ancestors_iff c).mp mem_ancestors_self q hq hqs
  · rw [ancestors_set_of_lt hm.earlier, hm.ancestors_iff]
    exact fun q hq hqs ↦ hm.ancestors_subset ho hs hqs (hd q hq (hm.isSome_set ho hs hqs))

/-- Blocks before the one that has moved stay settled. -/
theorem settled_of_lt (hb0 : b ≠ 0) (hlt : order.idxOf b < order.idxOf x)
    (h : Settled g order s b) : Settled g order (s.set x (some c)) b := by
  intro p hp
  rw [parent?_of_ne (by rintro rfl; omega)] at hp
  obtain ⟨hearly, hcommon⟩ := h p hp
  have hpb := (hs.parent b p hp hb0).1
  refine ⟨fun q hq hqs hqb ↦ ?_, fun d hd ↦ ?_⟩
  · rw [parent?_of_ne (by rintro rfl; omega)] at hqs
    rw [ancestors_set_of_lt (hqb.trans hlt)]
    exact hearly q hq hqs hqb
  · rw [ancestors_set_of_lt (hpb.trans hlt)]
    exact hcommon d fun q hq hqs ↦
      hm.ancestors_subset ho hs hqs (hd q hq (hm.isSome_set ho hs hqs))

end Move

section Step

variable {x : Nat} (ho : SearchOrder g order) (ht : Sound g order t)
  (hst : ∀ b, b ≠ 0 → Settled g order t b)
  (h : Midway g order t s (order.idxOf x)) (hx : x ∈ order) (hx0 : x ≠ 0)
include ho ht hst h hx hx0

/-- The next block may be moved under what its predecessors have in common. -/
theorem Midway.next_parent : ∃ c, common g order s x = some c ∧ Move g order s x c := by
  obtain ⟨p₀, hp₀, hxp₀, hlt₀⟩ := ho.earlier x hx hx0
  have hset₀ : (s.parent? p₀).isSome := h.found p₀ hp₀ hlt₀
  obtain ⟨c, hc, hcset, hanc, hdom⟩ := h.sound.common_spec ho hxp₀ hset₀
  have hcq : ∀ q, x ∈ g.successors q → (s.parent? q).isSome → c ∈ s.ancestors order q :=
    (hanc c).mp mem_ancestors_self
  have hclt : order.idxOf c < order.idxOf x := (idxOf_le (hcq p₀ hxp₀ hset₀)).trans_lt hlt₀
  refine ⟨c, hc, hx, hx0, hcset, hclt, hanc, hdom, fun y hy ↦ ?_⟩
  -- `y` is the parent from before the round, when it was an ancestor of the earlier predecessor
  have hyt : t.parent? x = some y := h.later x (Nat.le_refl _) ▸ hy
  obtain ⟨hearly, hcommon⟩ := hst x hx0 y hyt
  have hcy : c ∈ t.ancestors order y :=
    hcommon c fun q hq hqt ↦ h.shrunk q hqt c (hcq q hq (h.isSome hqt))
  have hp₀t : (t.parent? p₀).isSome := ht.initial x (by simp [hyt]) p₀ hp₀ hlt₀
  exact h.kept p₀ hp₀t y (hearly p₀ hxp₀ hp₀t hlt₀) c (hcq p₀ hxp₀ hset₀) (idxOf_le hcy)

/-- A round deals with the next block. -/
theorem Midway.step :
    Midway g order t (s.set x (common g order s x)) (order.idxOf x + 1) := by
  obtain ⟨c, hc, hm⟩ := h.next_parent ho ht hst hx hx0
  have hs := h.sound
  have hlt (b : Nat) (hb : b ∈ order) (hle : order.idxOf b < order.idxOf x + 1) (hbx : b ≠ x) :
      order.idxOf b < order.idxOf x := by
    have hne : order.idxOf b ≠ order.idxOf x := fun he ↦ hbx ((List.idxOf_inj hb).mp he)
    omega
  rw [hc]
  refine
    { sound := hm.sound ho hs h.found
      found := fun b hb hle ↦ ?_, later := fun b hle ↦ ?_, raised := fun b p hp ↦ ?_
      shrunk := fun b hb a ha ↦ h.shrunk b hb a (hm.ancestors_subset ho hs (h.isSome hb) ha)
      kept := fun b hb z hz a ha hle ↦ ?_, settled := fun b hle hb0 ↦ ?_
      resting := fun hrest b hb hle hb0 ↦ ?_ }
  case refine_1 =>
    by_cases hbx : b = x
    · rw [hbx, hm.parent?_self ho hs]
      rfl
    · exact hm.isSome_set ho hs (h.found b hb (hlt b hb hle hbx))
  case refine_2 =>
    rw [Move.parent?_of_ne (by rintro rfl; omega), h.later b (by omega)]
  case refine_3 =>
    by_cases hbx : b = x
    · subst hbx
      exact ⟨c, hm.parent?_self ho hs, idxOf_le (hm.up p (h.later b (Nat.le_refl _) ▸ hp))⟩
    · rw [Move.parent?_of_ne hbx]
      exact h.raised b p hp
  case refine_4 =>
    by_cases hzx : order.idxOf z < order.idxOf x
    · rw [ancestors_set_of_lt hzx]
      exact h.kept b hb z hz a (hm.ancestors_subset ho hs (h.isSome hb) ha) hle
    · refine ancestors_linear ha (mem_ancestors_of_agree (fun e he ↦ ?_) hz) hle
      rw [Move.parent?_of_ne (by rintro rfl; omega), h.later e (by omega)]
  case refine_5 =>
    by_cases hbx : b = x
    · exact hbx ▸ hm.settled_self ho hs
    · intro p hp
      have hb : b ∈ order := hs.mem b (by rw [← Move.parent?_of_ne hbx, hp]; rfl)
      have hbx := hlt b hb hle hbx
      exact hm.settled_of_lt ho hs hb0 hbx (h.settled b hbx hb0) p hp
  case refine_6 =>
    have hsame (e : Nat) : s.parent? e = t.parent? e := by
      by_cases hex : e = x
      · exact hex ▸ h.later x (Nat.le_refl _)
      · rw [← Move.parent?_of_ne hex, hrest e]
    have hss : s.set x (some c) = s :=
      eq_of_parent? (by simp) fun e ↦ (hrest e).trans (hsame e).symm
    by_cases hbx : b = x
    · rw [hbx, hm.parent?_self ho hs, hss, hc]
    · rw [hss]
      exact h.resting hsame b hb (hlt b hb hle hbx) hb0

end Step

/-- What a round has come to when it has dealt with so many blocks after the entry. -/
def partway (g : Table) (order : List Nat) (t : DominatorTree) (k : Nat) : DominatorTree :=
  (order.tail.take k).foldl (fun t b ↦ t.set b (common g order t b)) t

/-- The next block in the order gets the parent that its predecessors give it. -/
theorem partway_succ {k : Nat} (hk : k + 1 < order.length) :
    partway g order t (k + 1) =
      (partway g order t k).set order[k + 1]
        (common g order (partway g order t k) order[k + 1]) := by
  have hlt : k < order.tail.length := by
    rw [List.length_tail]
    omega
  unfold partway
  rw [List.take_succ_eq_append_getElem hlt, List.foldl_append, List.getElem_tail]
  rfl

/-- After that many blocks the round is over. -/
theorem partway_of_le {k : Nat} (hk : order.length ≤ k + 1) :
    partway g order t k = round g order t := by
  unfold partway round
  rw [List.take_of_length_le]
  rw [List.length_tail]
  omega

/-- A round deals with one block after the other. -/
theorem midway_partway (ho : SearchOrder g order) (ht : Sound g order t)
    (hst : ∀ b, b ≠ 0 → Settled g order t b) {k : Nat} (hk : k < order.length) :
    Midway g order t (partway g order t k) (k + 1) := by
  induction k with
  | zero => exact .start ht ho
  | succ k ih =>
    have hidx : order.idxOf order[k + 1] = k + 1 := ho.nodup.idxOf_getElem (k + 1) hk
    have hx0 : order[k + 1] ≠ 0 := fun h0 ↦ by
      rw [h0, ho.entry_first] at hidx
      omega
    have hstep := Midway.step ho ht hst (hidx.symm ▸ ih (by omega)) (List.getElem_mem hk) hx0
    rw [partway_succ hk]
    rwa [hidx] at hstep

/-- A round deals with all blocks. -/
theorem midway_round (ho : SearchOrder g order) (ht : Sound g order t)
    (hst : ∀ b, b ≠ 0 → Settled g order t b) :
    ∃ k ≥ order.length, Midway g order t (round g order t) k := by
  cases hlen : order.length with
  | zero =>
    rw [← partway_of_le (k := 0) (by omega)]
    exact ⟨1, Nat.zero_le 1, .start ht ho⟩
  | succ k =>
    rw [← partway_of_le (k := k) (by omega)]
    exact ⟨k + 1, Nat.le_refl _, midway_partway ho ht hst (by omega)⟩

/-! ### Rest -/

/-- A tree at rest: all blocks are in it, each with the parent that its predecessors give it. -/
structure AtRest (g : Table) (order : List Nat) (t : DominatorTree) : Prop where
  sound : Sound g order t
  all : ∀ b ∈ order, (t.parent? b).isSome
  parent : ∀ b ∈ order, b ≠ 0 → t.parent? b = common g order t b

private def cost (order : List Nat) : Option Nat → Nat
  | some p => order.idxOf p
  | none => order.length + 1

private theorem distance_lt (next t : DominatorTree)
    (h : List.Forall₂ (fun q p ↦ q = p ∨ cost order q < cost order p) next t) :
    next = t ∨ distance order next < distance order t := by
  have hle (a b : DominatorTree)
      (hab : List.Forall₂ (fun q p ↦ q = p ∨ cost order q < cost order p) a b) :
      distance order a ≤ distance order b := by
    induction hab with
    | nil => exact Nat.le_refl _
    | @cons q p a b hqp _ ih =>
      have hcost : cost order q ≤ cost order p := hqp.elim (fun h ↦ h ▸ Nat.le_refl _) Nat.le_of_lt
      exact Nat.add_le_add ih hcost
  induction h with
  | nil => exact Or.inl rfl
  | @cons q p a b hqp hab ih =>
    rcases hqp with rfl | hqp
    · exact ih.imp (congrArg _) fun h ↦ Nat.add_lt_add_right h _
    · exact Or.inr (Nat.add_lt_add_of_le_of_lt (hle a b hab) hqp)

/-- A round that does not bring the tree closer to the entry changes nothing. -/
theorem round_eq_or_lt (ho : SearchOrder g order) (ht : Sound g order t)
    (hst : ∀ b, b ≠ 0 → Settled g order t b) :
    round g order t = t ∨ distance order (round g order t) < distance order t := by
  obtain ⟨k, -, h⟩ := midway_round ho ht hst
  refine distance_lt _ _ (List.forall₂_iff_get.mpr ⟨?_, fun b hbs hbt ↦ ?_⟩)
  · rw [h.sound.length, ht.length]
  · have hget (u : DominatorTree) (hb : b < u.length) : u.get ⟨b, hb⟩ = u.parent? b := by
      simp [parent?, List.getD_eq_getElem?_getD, List.getElem?_eq_getElem hb]
    rw [hget, hget]
    cases hp : t.parent? b with
    | none =>
      cases hq : (round g order t).parent? b with
      | none => exact Or.inl rfl
      | some q =>
        have hle : order.idxOf q ≤ order.length := List.idxOf_le_length
        exact Or.inr (Nat.lt_succ_of_le hle)
    | some p =>
      obtain ⟨q, hq, hle⟩ := h.raised b p hp
      rw [hq]
      rcases Nat.eq_or_lt_of_le hle with heq | hlt
      · have hqm : q ∈ order := by
          by_cases hb0 : b = 0
          · subst hb0
            obtain rfl := Option.some.inj (h.sound.root.symm.trans hq)
            exact h.sound.mem 0 (by simp [hq])
          · exact h.sound.mem q (h.sound.parent b q hq hb0).2.1
        exact Or.inl (congrArg some ((List.idxOf_inj hqm).mp heq))
      · exact Or.inr hlt

/-- After a round another may follow. -/
theorem sound_round (ho : SearchOrder g order) (ht : Sound g order t)
    (hst : ∀ b, b ≠ 0 → Settled g order t b) :
    Sound g order (round g order t) ∧ ∀ b, b ≠ 0 → Settled g order (round g order t) b := by
  obtain ⟨k, hk, h⟩ := midway_round ho ht hst
  refine ⟨h.sound, fun b hb0 ↦ ?_⟩
  by_cases hb : b ∈ order
  · exact h.settled b ((List.idxOf_lt_length_of_mem hb).trans_le hk) hb0
  · exact fun p hp ↦ absurd (h.sound.mem b (Option.isSome_iff_exists.mpr ⟨p, hp⟩)) hb

/-- The rounds come to rest. -/
theorem atRest_settle (ho : SearchOrder g order) (ht : Sound g order t)
    (hst : ∀ b, b ≠ 0 → Settled g order t b) : AtRest g order (settle g order t) := by
  fun_induction settle g order t with
  | case1 t next hlt ih => exact ih (sound_round ho ht hst).1 (sound_round ho ht hst).2
  | case2 t next hge =>
    obtain ⟨k, hk, h⟩ := midway_round ho ht hst
    have hk' (b : Nat) (hb : b ∈ order) : order.idxOf b < k :=
      (List.idxOf_lt_length_of_mem hb).trans_le hk
    have heq : round g order t = t := (round_eq_or_lt ho ht hst).resolve_right hge
    exact
      { sound := h.sound
        all := fun b hb ↦ h.found b hb (hk' b hb)
        parent := fun b hb hb0 ↦
          h.resting (fun e ↦ congrArg (parent? · e) heq) b hb (hk' b hb) hb0 }

/-- In a tree at rest the ancestors of a block are its dominators. -/
theorem AtRest.mem_ancestors_iff (h : AtRest g order t) (ho : SearchOrder g order)
    (hb : b ∈ order) : a ∈ t.ancestors order b ↔ g.Dominates a b := by
  refine ⟨fun ha ↦ ?_, h.sound.mem_ancestors_of_dominates ho h.all⟩
  have haset : (t.parent? a).isSome := h.sound.isSome_of_mem ha (h.all b hb)
  refine ⟨(ho.mem_iff a).mp (h.sound.mem a haset), (ho.mem_iff b).mp hb, fun p hp ↦ ?_⟩
  have hroot (ha0 : a ∈ t.ancestors order 0) : a = 0 := by
    refine eq_of_mem_ancestors (fun q hq ↦ ?_) ha0
    obtain rfl := Option.some.inj (h.sound.root.symm.trans hq)
    exact Nat.lt_irrefl _
  induction hp with
  | start h0 => simp [hroot ha]
  | @step p e c hp hc ih =>
    have he : e ∈ order := ho.source e c hc
    by_cases hac : a = c
    · simp [hac]
    · have hc0 : c ≠ 0 := fun h0 ↦ hac (h0 ▸ hroot (h0 ▸ ha))
      obtain ⟨q, hq, -, hanc, -⟩ := h.sound.common_spec ho hc (h.all e he)
      have hpar : t.parent? c = some q := by rw [h.parent c hb hc0, hq]
      have hlt := (h.sound.parent c q hpar hc0).1
      have haq := ((mem_ancestors_of_parent hpar hlt).mp ha).resolve_left hac
      have hqe := (hanc q).mp mem_ancestors_self e hc (h.all e he)
      exact List.mem_cons_of_mem _ (ih he (ancestors_trans haq hqe))

/-- A tree of the entry alone is sound. -/
theorem sound_start (ho : SearchOrder g order) (hlen : 0 < g.length) : Sound g order (start g) := by
  have hparent (b : Nat) : parent? (start g) b = if b = 0 then some 0 else none := by
    rw [start, parent?_set]
    by_cases hb : b = 0
    · simp [hb, hlen]
    · by_cases hlt : b < g.length <;> simp [hb, parent?, List.getD_eq_getElem?_getD, hlt]
  exact
    { length := by simp [start]
      root := by simp [hparent]
      mem := fun b hb ↦ by
        have hb0 : b = 0 := by simpa [hparent] using hb
        exact hb0 ▸ (ho.mem_iff 0).mpr (.refl hlen)
      initial := fun b hb a ha hlt ↦ by
        have hb0 : b = 0 := by simpa [hparent] using hb
        exact absurd hb0 (ho.ne_entry hlt)
      parent := fun b p hp hb0 ↦ by simp [hparent, hb0] at hp }

/-- Nothing has been settled yet in a tree of the entry alone. -/
theorem settled_start (g : Table) (order : List Nat) (hb0 : b ≠ 0) :
    Settled g order (start g) b := by
  intro p hp
  rw [start, parent?_set, if_neg (fun h ↦ hb0 h.1)] at hp
  by_cases hlt : b < g.length <;> simp [parent?, List.getD_eq_getElem?_getD, hlt] at hp

/-- The computed tree is at rest. -/
theorem atRest_ofTable (ho : SearchOrder g (g.orderFrom 0)) (hlen : 0 < g.length) :
    AtRest g (g.orderFrom 0) (ofTable g) :=
  atRest_settle ho (sound_start ho hlen) fun _ ↦ settled_start g _

end DominatorTree
end Wiring.Flow
