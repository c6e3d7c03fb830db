import Mathlib.Logic.Function.Iterate
import Mathlib.Logic.Relation
import Wiring.Proofs.Flow.DominatorTree

/-!
# Climbs and rounds come to an end

The meet of two blocks is found by climbing, and dominators by going over the blocks until a round
changes nothing. The definitions stop where a climb does not get closer to the entry, or a round
does not. Here both run without such a stop: in each tree that the rounds pass through, parents come
earlier in the order of the search, so that every climb ends where the two blocks meet, and every
round either brings some parent closer to the entry or is the last.
-/

namespace Wiring.Flow.DominatorTree

/-! ### Climbs -/

/-- One turn of a climb: whichever of the two blocks comes later in the order goes to its parent.
A block that the order does not list counts as later than all others. Once the blocks are the same
there is no turn left; a block without a parent, and two blocks without a place, have none
either. -/
inductive Climb (order : List Nat) (t : DominatorTree) : Nat × Nat → Nat × Nat → Prop
  | left {a b p : Nat} (hlt : order.idxOf b < order.idxOf a) (hp : t.parent? a = some p) :
      Climb order t (a, b) (p, b)
  | right {a b p : Nat} (hlt : order.idxOf a < order.idxOf b) (hp : t.parent? b = some p) :
      Climb order t (a, b) (a, p)

/-- Both blocks have places to be compared by, and parents to go to. -/
structure CanClimb (order : List Nat) (t : DominatorTree) (s : Nat × Nat) : Prop where
  left : s.1 ∈ order
  right : s.2 ∈ order
  leftParent : (t.parent? s.1).isSome
  rightParent : (t.parent? s.2).isSome

/-- In the tree every climb from two of its blocks ends where they meet. -/
structure Climbable (order : List Nat) (t : DominatorTree) : Prop where
  /-- Parents come earlier in the order. -/
  earlier : ∀ b p, t.parent? b = some p → b ≠ 0 → order.idxOf p < order.idxOf b
  /-- No climb goes on forever. -/
  ends : ∀ a b, (t.parent? a).isSome → (t.parent? b).isSome →
    Acc (fun s s' ↦ Climb order t s' s) (a, b)
  /-- No climb comes to a block without a place or without a parent. -/
  safe : ∀ a b, (t.parent? a).isSome → (t.parent? b).isSome →
    ∀ s, Relation.ReflTransGen (Climb order t) (a, b) s → CanClimb order t s
  /-- The climb leads to the meet, and this is a block from which the next climb may start. -/
  meets : ∀ a b, (t.parent? a).isSome → (t.parent? b).isSome →
    Relation.ReflTransGen (Climb order t) (a, b) (meet order t a b, meet order t a b) ∧
      (t.parent? (meet order t a b)).isSome

variable {g : Table} {order : List Nat} {t : DominatorTree} {a b : Nat}

namespace Sound

variable (hs : Sound g order t) (ho : SearchOrder g order)
include hs ho

/-- A turn leads to blocks of the tree, and closer to the entry. -/
theorem climb {s s' : Nat × Nat} (hc : Climb order t s s') (ha : (t.parent? s.1).isSome)
    (hb : (t.parent? s.2).isSome) : (t.parent? s'.1).isSome ∧ (t.parent? s'.2).isSome ∧
      order.idxOf s'.1 + order.idxOf s'.2 < order.idxOf s.1 + order.idxOf s.2 := by
  cases hc with
  | @left a b p hlt hp =>
    obtain ⟨hpa, hset, -⟩ := hs.parent a p hp (ho.ne_entry hlt)
    exact ⟨hset, hb, Nat.add_lt_add_right hpa _⟩
  | @right a b p hlt hp =>
    obtain ⟨hpb, hset, -⟩ := hs.parent b p hp (ho.ne_entry hlt)
    exact ⟨ha, hset, Nat.add_lt_add_left hpb _⟩

theorem acc_climb {s : Nat × Nat} (ha : (t.parent? s.1).isSome) (hb : (t.parent? s.2).isSome) :
    Acc (fun s s' ↦ Climb order t s' s) s := by
  induction hn : order.idxOf s.1 + order.idxOf s.2 using Nat.strongRecOn generalizing s with
  | ind n ih =>
    refine Acc.intro s fun s' hc ↦ ?_
    obtain ⟨ha', hb', hlt⟩ := hs.climb ho hc ha hb
    exact ih _ (hn ▸ hlt) ha' hb' rfl

theorem canClimb {s s' : Nat × Nat} (hc : Relation.ReflTransGen (Climb order t) s s')
    (ha : (t.parent? s.1).isSome) (hb : (t.parent? s.2).isSome) : CanClimb order t s' := by
  have hset : (t.parent? s'.1).isSome ∧ (t.parent? s'.2).isSome := by
    induction hc with
    | refl => exact ⟨ha, hb⟩
    | tail _ hturn ih => exact ⟨(hs.climb ho hturn ih.1 ih.2).1, (hs.climb ho hturn ih.1 ih.2).2.1⟩
  exact ⟨hs.mem _ hset.1, hs.mem _ hset.2, hset.1, hset.2⟩

/-- The stops of the meet are never used. -/
theorem climb_meet (ha : (t.parent? a).isSome) (hb : (t.parent? b).isSome) :
    Relation.ReflTransGen (Climb order t) (a, b) (meet order t a b, meet order t a b) := by
  fun_induction meet order t a b with
  | case1 a b hlt p hp hpa ih =>
    exact .head (.left hlt hp) (ih (hs.parent a p hp (ho.ne_entry hlt)).2.1 hb)
  | case2 a b hlt p hp hpa => exact absurd (hs.parent a p hp (ho.ne_entry hlt)).1 hpa
  | case3 a b hlt hp => simp [hp] at ha
  | case4 a b hge hlt p hp hpb ih =>
    exact .head (.right hlt hp) (ih ha (hs.parent b p hp (ho.ne_entry hlt)).2.1)
  | case5 a b hge hlt p hp hpb => exact absurd (hs.parent b p hp (ho.ne_entry hlt)).1 hpb
  | case6 a b hge hlt hp => simp [hp] at hb
  | case7 a b hge hle =>
    have hab : a = b := (List.idxOf_inj (hs.mem a ha)).mp (by omega)
    subst hab
    exact .refl

theorem climbable : Climbable order t where
  earlier b p hp hb0 := (hs.parent b p hp hb0).1
  ends _ _ ha hb := hs.acc_climb ho ha hb
  safe _ _ ha hb _ hc := hs.canClimb ho hc ha hb
  meets _ _ ha hb := ⟨hs.climb_meet ho ha hb, hs.isSome_meet ho ha hb⟩

end Sound

/-! ### Rounds -/

/-- The tree after so many rounds, whether or not they change it. -/
def rounds (g : Table) (n : Nat) : DominatorTree := (round g (g.orderFrom 0))^[n] (start g)

theorem rounds_succ (g : Table) (n : Nat) :
    rounds g (n + 1) = round g (g.orderFrom 0) (rounds g n) := Function.iterate_succ_apply' _ _ _

/-- In every round the tree is sound, and another round may follow. -/
theorem sound_rounds (ho : SearchOrder g (g.orderFrom 0)) (hlen : 0 < g.length) (n : Nat) :
    Sound g (g.orderFrom 0) (rounds g n) ∧
      ∀ b, b ≠ 0 → Settled g (g.orderFrom 0) (rounds g n) b := by
  induction n with
  | zero => exact ⟨sound_start ho hlen, fun _ ↦ settled_start g _⟩
  | succ n ih =>
    rw [rounds_succ]
    exact sound_round ho ih.1 ih.2

/-- Also in the middle of a round the tree is sound. -/
theorem sound_partway (ho : SearchOrder g order) (ht : Sound g order t)
    (hst : ∀ b, b ≠ 0 → Settled g order t b) (k : Nat) : Sound g order (partway g order t k) := by
  by_cases hk : k < order.length
  · exact (midway_partway ho ht hst hk).sound
  · rw [partway_of_le (by omega)]
    exact (sound_round ho ht hst).1

/-- A block keeps its parent while a round deals with other blocks. -/
theorem parent?_foldl_of_notMem {l : List Nat} (hb : b ∉ l) (t : DominatorTree) :
    parent? (l.foldl (fun t b ↦ t.set b (common g order t b)) t) b = t.parent? b := by
  induction l generalizing t with
  | nil => rfl
  | cons c l ih =>
    rw [List.mem_cons, not_or] at hb
    rw [List.foldl_cons, ih hb.2, parent?_set, if_neg fun h ↦ hb.1 h.1]

/-- A round that changes nothing in the end has changed nothing on the way, as it deals with each
block once. -/
theorem partway_eq_of_round_eq (hn : order.Nodup) (h : round g order t = t) (k : Nat) :
    partway g order t k = t := by
  have hround : round g order t =
      (order.tail.drop k).foldl (fun t b ↦ t.set b (common g order t b)) (partway g order t k) := by
    rw [partway, ← List.foldl_append, List.take_append_drop]
    rfl
  have hlength : (partway g order t k).length = t.length :=
    List.foldlRecOn (motive := fun s : DominatorTree ↦ s.length = t.length) _ _ rfl
      fun s hs b _ ↦ by simpa using hs
  refine eq_of_parent? hlength fun b ↦ ?_
  by_cases hb : b ∈ order.tail.take k
  · have hlater : b ∉ order.tail.drop k := fun hd ↦
      List.disjoint_take_drop hn.tail (Nat.le_refl k) hb hd
    calc (partway g order t k).parent? b
        = (round g order t).parent? b := by rw [hround, parent?_foldl_of_notMem hlater]
      _ = t.parent? b := by rw [h]
  · exact parent?_foldl_of_notMem hb t

/-- The rounds that are made are those up to the first that changes nothing. -/
theorem settle_eq_iterate (ho : SearchOrder g order) (ht : Sound g order t)
    (hst : ∀ b, b ≠ 0 → Settled g order t b) :
    ∃ n, (∀ m < n, (round g order)^[m + 1] t ≠ (round g order)^[m] t) ∧
      (round g order)^[n + 1] t = (round g order)^[n] t ∧
      settle g order t = (round g order)^[n] t := by
  fun_induction settle g order t with
  | case1 t next hlt ih =>
    obtain ⟨n, hchange, hrest, heq⟩ := ih (sound_round ho ht hst).1 (sound_round ho ht hst).2
    refine ⟨n + 1, fun m hm ↦ ?_, hrest, heq⟩
    cases m with
    | zero =>
      intro hround
      rw [show next = t from hround] at hlt
      exact absurd hlt (Nat.lt_irrefl _)
    | succ m => exact hchange m (by omega)
  | case2 t next hge =>
    have heq : next = t := (round_eq_or_lt ho ht hst).resolve_right hge
    exact ⟨0, by simp, heq, heq⟩

theorem partway_nil (k : Nat) : partway [] (Table.orderFrom [] 0) [] k = [] := by
  simp [partway, Table.orderFrom]

theorem rounds_nil (n : Nat) : rounds [] n = [] := by
  induction n with
  | zero => rfl
  | succ n ih =>
    rw [rounds_succ, ih, ← partway_of_le (k := 0) (by simp [Table.orderFrom]), partway_nil]

/-- The order of the search lists each block that can be reached once, the entry first and every
other block after one of its predecessors. In every tree that the rounds pass through, parents are
earlier in that order, and each climb from two blocks of the tree ends at their meet without coming
to a block that has no place or no parent. Some round, the first that changes nothing, finds every
block with its parent, and then the tree is the computed one. -/
theorem climbs_and_rounds_end (hg : g.InRange)
    (hsource : ∀ b, ∀ c ∈ g.successors b, g.Reaches 0 b) :
    ((g.orderFrom 0).Nodup ∧ (∀ b, b ∈ g.orderFrom 0 ↔ g.Reaches 0 b) ∧
      (∀ b ∈ (g.orderFrom 0).head?, b = 0) ∧
      ∀ b ∈ g.orderFrom 0, b ≠ 0 → ∃ p ∈ g.orderFrom 0, b ∈ g.successors p ∧
        (g.orderFrom 0).idxOf p < (g.orderFrom 0).idxOf b) ∧
    (∀ n k, Climbable (g.orderFrom 0) (partway g (g.orderFrom 0) (rounds g n) k)) ∧
    ∃ n, (∀ m < n, rounds g (m + 1) ≠ rounds g m) ∧
      (∀ k, partway g (g.orderFrom 0) (rounds g n) k = rounds g n) ∧ ofTable g = rounds g n := by
  refine ⟨⟨Table.nodup_orderFrom hg, fun b ↦ Table.mem_orderFrom hg, fun b hb ↦ ?_,
    fun b ↦ Table.exists_earlier hg⟩, ?_⟩
  · by_cases hlen : 0 < g.length
    · exact (Option.some.inj ((Table.head?_orderFrom hg hlen).symm.trans hb)).symm
    · simp [Table.orderFrom, hlen] at hb
  by_cases hlen : 0 < g.length
  · have ho := SearchOrder.of_search hg hlen hsource
    refine ⟨fun n k ↦ ?_, ?_⟩
    · obtain ⟨ht, hst⟩ := sound_rounds ho hlen n
      exact (sound_partway ho ht hst k).climbable ho
    · obtain ⟨n, hchange, hrest, heq⟩ :=
        settle_eq_iterate ho (sound_start ho hlen) fun _ ↦ settled_start g _
      refine ⟨n, hchange, fun k ↦ partway_eq_of_round_eq ho.nodup ?_ k, heq⟩
      rw [← rounds_succ]
      exact hrest
  · -- in a graph without blocks there is nothing to do
    obtain rfl : g = [] := List.eq_nil_of_length_eq_zero (Nat.eq_zero_of_not_pos hlen)
    refine ⟨fun n k ↦ ?_, 0, by simp, fun k ↦ by rw [rounds_nil, partway_nil], ?_⟩
    · rw [rounds_nil, partway_nil]
      constructor <;> simp [parent?]
    · simp [ofTable, settle, round, Table.orderFrom, rounds]

/-- A loop that can be entered in two places, and in which one block follows itself; the last block
cannot be reached. -/
theorem climbs_and_rounds_end_irreducible :
    let g : Table := [[1, 2], [2], [1, 2, 3], [], []]
    g.InRange ∧ (∀ b, ∀ c ∈ g.successors b, g.Reaches 0 b) ∧
      ((g.orderFrom 0).Nodup ∧ (∀ b, b ∈ g.orderFrom 0 ↔ g.Reaches 0 b) ∧
        (∀ b ∈ (g.orderFrom 0).head?, b = 0) ∧
        ∀ b ∈ g.orderFrom 0, b ≠ 0 → ∃ p ∈ g.orderFrom 0, b ∈ g.successors p ∧
          (g.orderFrom 0).idxOf p < (g.orderFrom 0).idxOf b) ∧
      (∀ n k, Climbable (g.orderFrom 0) (partway g (g.orderFrom 0) (rounds g n) k)) ∧
      ∃ n, (∀ m < n, rounds g (m + 1) ≠ rounds g m) ∧
        (∀ k, partway g (g.orderFrom 0) (rounds g n) k = rounds g n) ∧ ofTable g = rounds g n := by
  intro g
  have h0 : g.Reaches 0 0 := .refl (by decide)
  have hg : g.InRange := fun b c hc ↦ by
    rcases b with _ | _ | _ | _ | _ | b <;> simp [g, Table.successors] at hc ⊢ <;> omega
  have hsource : ∀ b, ∀ c ∈ g.successors b, g.Reaches 0 b := fun b c hc ↦ by
    rcases b with _ | _ | _ | _ | _ | b
    · exact h0
    · exact h0.step (by decide)
    · exact h0.step (by decide)
    all_goals simp [g, Table.successors] at hc
  exact ⟨hg, hsource, climbs_and_rounds_end hg hsource⟩

end Wiring.Flow.DominatorTree
