import Wiring.Proofs.Flow.DominatorTree

/-!
# Look-ups by block number

A graph and what is computed of it are tables by block number, and a look-up of a number without a
block gives a default. Here the same computations are written such that they fail there, and also
where a loop would not come nearer to its end. They never fail: the defaults are never used.
-/

namespace Wiring.Flow

namespace Table

/-- Continue a search; it fails if it looks for successors of what is no block, or finds what is
none. -/
def search? (g : Table) (stack : List (Nat × List Nat)) (unfound left : List Nat) :
    Option (List Nat) :=
  match stack with
  | [] => some left
  | (b, []) :: stack =>
    if b < g.length then g.search? stack unfound (b :: left) else none
  | (b, s :: rest) :: stack =>
    if b < g.length ∧ s < g.length then
      if hs : s ∈ unfound then
        have := g.work_erase hs
        g.search? ((s, g.successors s) :: (b, rest) :: stack) (unfound.erase s) left
      else g.search? ((b, rest) :: stack) unfound left
    else none
termination_by g.work unfound + openWork stack
decreasing_by all_goals simp_all [openWork]; try omega

/-- The order of a search from a block; it fails if there is no such block. -/
def orderFrom? (g : Table) (b : Nat) : Option (List Nat) := do
  g.search? [(b, ← g[b]?)] ((List.range g.length).erase b) []

/-- The blocks with an edge to the block; it fails if some edge leads to what is no block. -/
def predecessors? (g : Table) (b : Nat) : Option (List Nat) :=
  if b < g.length ∧ ∀ l ∈ g, ∀ c ∈ l, c < g.length then some (DominatorTree.predecessors g b)
  else none

variable {g : Table} {a : Nat}

/-- What can be reached is a block. -/
theorem Reaches.lt {b : Nat} (hg : g.InRange) (h : g.Reaches a b) : b < g.length := by
  obtain ⟨p, hp⟩ := h
  cases hp with
  | start h => exact h
  | step hp hc => exact hg _ _ hc

/-- A search never fails. -/
theorem Searching.search?_eq (hg : g.InRange) : ∀ {stack unfound left},
    Searching g a stack unfound left → g.search? stack unfound left =
      some (g.search stack unfound left) := by
  intro stack unfound left h
  fun_induction search g stack unfound left with
  | case1 unfound left => rw [search?]
  | case2 unfound left b stack ih =>
    have hb : b < g.length := (h.reached b (by simp)).lt hg
    rw [search?, if_pos hb]
    exact ih h.leave
  | case3 unfound left b s rest stack hs this ih =>
    have hb : b < g.length := (h.reached b (by simp)).lt hg
    have hlt : s < g.length := hg b s (h.to_look (b, s :: rest) (by simp) s (by simp))
    rw [search?, if_pos ⟨hb, hlt⟩, dif_pos hs]
    exact ih (h.enter hg hs)
  | case4 unfound left b s rest stack hs ih =>
    have hb : b < g.length := (h.reached b (by simp)).lt hg
    have hlt : s < g.length := hg b s (h.to_look (b, s :: rest) (by simp) s (by simp))
    rw [search?, if_pos ⟨hb, hlt⟩, dif_neg hs]
    exact ih (h.skip hs)

/-- A search from a block never fails. -/
theorem orderFrom?_eq (hg : g.InRange) (ha : a < g.length) :
    g.orderFrom? a = some (g.orderFrom a) := by
  have hget : g[a]? = some (g.successors a) := by
    simp [successors, List.getD_eq_getElem?_getD, ha]
  rw [orderFrom?, hget, orderFrom, if_pos (List.mem_range.mpr ha)]
  exact (Searching.start ha).search?_eq hg

/-- All edges of a graph in range lead to blocks. -/
theorem predecessors?_eq (hg : g.InRange) {b : Nat} (hb : b < g.length) :
    g.predecessors? b = some (DominatorTree.predecessors g b) := by
  refine if_pos ⟨hb, fun l hl c hc ↦ ?_⟩
  obtain ⟨i, hi, rfl⟩ := List.getElem_of_mem hl
  exact hg i c (by simpa [successors, List.getD_eq_getElem?_getD, hi] using hc)

end Table

namespace DominatorTree

/-- The nearest common ancestor of two blocks; it fails if the climb comes to what is no block of
the tree, or does not go to the front. -/
def meet? (order : List Nat) (t : DominatorTree) (a b : Nat) : Option Nat :=
  if a < t.length ∧ b < t.length then
    if order.idxOf b < order.idxOf a then
      match t.parent? a with
      | some p => if order.idxOf p < order.idxOf a then meet? order t p b else none
      | none => some a
    else if order.idxOf a < order.idxOf b then
      match t.parent? b with
      | some p => if order.idxOf p < order.idxOf b then meet? order t a p else none
      | none => some b
    else if a = b then some a
    else none
  else none
termination_by order.idxOf a + order.idxOf b

/-- The nearest common ancestor of a block's predecessors that are in the tree; it fails if a
predecessor is no block of the tree. -/
def common? (g : Table) (order : List Nat) (t : DominatorTree) (b : Nat) :
    Option (Option Nat) := do
  (← g.predecessors? b).foldlM
    (fun found p ↦ do
      match ← t[p]?, found with
      | none, _ => return found
      | some _, none => return some p
      | some _, some q => return some (← meet? order t q p))
    none

/-- One round over the blocks after the entry; it fails if one is no block of the tree. -/
def round? (g : Table) (order : List Nat) (t : DominatorTree) : Option DominatorTree :=
  order.tail.foldlM
    (fun t b ↦ do
      let found ← common? g order t b
      if b < t.length then return t.set b found else none)
    t

/-- Go on with rounds until one changes nothing; it fails if one changes the tree and does not bring
dominators closer to the entry. -/
def settle? (g : Table) (order : List Nat) (t : DominatorTree) : Option DominatorTree :=
  match round? g order t with
  | none => none
  | some next =>
    if next = t then some next
    else if distance order next < distance order t then settle? g order next
    else none
termination_by distance order t

/-- The dominator tree of a graph; it fails if the graph has an entry and the search from there, or
a round, fails. -/
def ofTable? (g : Table) : Option DominatorTree :=
  if g.length = 0 then some [] else do
    let order ← g.orderFrom? 0
    if ∀ b ∈ order, b < g.length then settle? g order (start g) else none

/-- A block and its ancestors; it fails if the climb comes to what is no block of the tree, or
neither ends nor goes to the front. -/
def ancestors? (order : List Nat) (t : DominatorTree) (b : Nat) : Option (List Nat) :=
  match t[b]? with
  | none => none
  | some none => some [b]
  | some (some p) =>
    if p = b then some [b]
    else if order.idxOf p < order.idxOf b then do return b :: (← ancestors? order t p)
    else none
termination_by order.idxOf b

variable {g : Table} {order : List Nat} {t : DominatorTree} {a b : Nat}

theorem lt_of_isSome (h : (t.parent? b).isSome) : b < t.length := by
  by_contra hge
  simp [parent?, List.getD_eq_getElem?_getD, List.getElem?_eq_none (not_lt.mp hge)] at h

/-- The climb to a common ancestor never fails. -/
theorem Sound.meet?_eq (hs : Sound g order t) (ho : SearchOrder g order)
    (ha : (t.parent? a).isSome) (hb : (t.parent? b).isSome) :
    meet? order t a b = some (meet order t a b) := by
  fun_induction meet order t a b with
  | case1 a b hlt p hp hpa ih =>
    rw [meet?, if_pos ⟨lt_of_isSome ha, lt_of_isSome hb⟩, if_pos hlt, hp]
    exact (if_pos hpa).trans (ih (hs.parent a p hp (ho.ne_entry hlt)).2.1 hb)
  | case2 a b hlt p hp hpa =>
    exact absurd (hs.parent a p hp (ho.ne_entry hlt)).1 hpa
  | case3 a b hlt hp => simp [hp] at ha
  | case4 a b hge hlt p hp hpb ih =>
    rw [meet?, if_pos ⟨lt_of_isSome ha, lt_of_isSome hb⟩, if_neg hge, if_pos hlt, hp]
    exact (if_pos hpb).trans (ih ha (hs.parent b p hp (ho.ne_entry hlt)).2.1)
  | case5 a b hge hlt p hp hpb =>
    exact absurd (hs.parent b p hp (ho.ne_entry hlt)).1 hpb
  | case6 a b hge hlt hp => simp [hp] at hb
  | case7 a b hge hle =>
    have hab : a = b := (List.idxOf_inj (hs.mem a ha)).mp (by omega)
    rw [meet?, if_pos ⟨lt_of_isSome ha, lt_of_isSome hb⟩, if_neg hge, if_neg hle, if_pos hab]

theorem getElem?_of_lt (hb : b < t.length) : t[b]? = some (t.parent? b) := by
  simp [parent?, List.getD_eq_getElem?_getD, hb]

/-- What some blocks have in common is found without a failure, and is in the tree if there is
something. -/
private theorem foldlM_meet? (hs : Sound g order t) (ho : SearchOrder g order) (l : List Nat) :
    ∀ found : Option Nat, (∀ q, found = some q → (t.parent? q).isSome) → (∀ p ∈ l, p < t.length) →
      l.foldlM
          (fun found p ↦ do
            match ← t[p]?, found with
            | none, _ => return found
            | some _, none => return some p
            | some _, some q => return some (← meet? order t q p))
          found =
        some ((l.filter fun p ↦ (t.parent? p).isSome).foldl
          (fun found p ↦ match found with
            | none => some p
            | some q => some (meet order t q p)) found) := by
  -- What has been found so far is in the tree: a climb may start there.
  induction l with
  | nil => exact fun _ _ _ ↦ rfl
  | cons p l ih =>
    intro found hfound hl
    have hrest (found : Option Nat) (hfound : ∀ q, found = some q → (t.parent? q).isSome) :=
      ih found hfound fun q hq ↦ hl q (List.mem_cons_of_mem _ hq)
    rw [List.foldlM_cons, getElem?_of_lt (hl p (by simp)), List.filter_cons]
    cases hp : t.parent? p with
    | none => exact hrest found hfound
    | some _ =>
      have hpset : (t.parent? p).isSome := by rw [hp]; rfl
      cases found with
      | none =>
        refine hrest (some p) fun q hq ↦ ?_
        exact Option.some.inj hq ▸ hpset
      | some q =>
        have hq := hfound q rfl
        refine Eq.trans ?_ (hrest (some (meet order t q p)) fun r hr ↦ ?_)
        · simp only [Option.pure_def, Option.bind_eq_bind, Option.bind_some,
            hs.meet?_eq ho hq hpset]
        · exact Option.some.inj hr ▸ hs.isSome_meet ho hq hpset

/-- The look-up of a block's predecessors never fails. -/
theorem Sound.common?_eq (hs : Sound g order t) (ho : SearchOrder g order) (hb : b < g.length) :
    common? g order t b = some (common g order t b) := by
  rw [common?, Table.predecessors?_eq ho.inRange hb]
  refine foldlM_meet? hs ho _ none (fun q hq ↦ by simp at hq) fun p hp ↦ ?_
  rw [hs.length]
  exact List.mem_range.mp (List.mem_filter.mp hp).1

/-- A round never fails. -/
theorem Sound.round?_eq (hs : Sound g order t) (ho : SearchOrder g order)
    (hst : ∀ b, b ≠ 0 → Settled g order t b) : round? g order t = some (round g order t) := by
  -- By induction on the blocks that the round has not come to yet: midway through a round the tree
  -- is sound, and so the next block's predecessors are among its blocks.
  have hrest (l : List Nat) : ∀ (k : Nat) (s : DominatorTree), order.drop k = l → 1 ≤ k →
      Midway g order t s k →
        l.foldlM (fun t b ↦ do
            let found ← common? g order t b
            if b < t.length then return t.set b found else none) s =
          some (l.foldl (fun t b ↦ t.set b (common g order t b)) s) := by
    induction l with
    | nil => exact fun _ _ _ _ _ ↦ rfl
    | cons x l ih =>
      intro k s hl hk h
      have hklt : k < order.length := by
        by_contra hge
        simp [List.drop_eq_nil_of_le (not_lt.mp hge)] at hl
      rw [List.drop_eq_getElem_cons hklt] at hl
      obtain ⟨rfl, hdrop⟩ := List.cons.inj hl
      have hidx : order.idxOf order[k] = k := ho.nodup.idxOf_getElem k hklt
      have hmem : order[k] ∈ order := List.getElem_mem hklt
      have hx0 : order[k] ≠ 0 := fun h0 ↦ by
        rw [h0, ho.entry_first] at hidx
        omega
      have hlt : order[k] < g.length := ((ho.mem_iff _).mp hmem).lt ho.inRange
      have hstep := Midway.step ho hs hst (hidx.symm ▸ h) hmem hx0
      rw [hidx] at hstep
      have hfirst : (do
          let found ← common? g order s order[k]
          if order[k] < s.length then return s.set order[k] found else none) =
          some (s.set order[k] (common g order s order[k])) := by
        rw [h.sound.common?_eq ho hlt]
        exact if_pos (h.sound.length ▸ hlt)
      rw [List.foldlM_cons, hfirst]
      exact ih (k + 1) _ hdrop (by omega) hstep
  unfold round? round
  rw [← List.drop_one]
  exact hrest _ 1 t rfl (Nat.le_refl _) (.start hs ho)

/-- Going on with rounds never fails. -/
theorem Sound.settle?_eq (hs : Sound g order t) (ho : SearchOrder g order)
    (hst : ∀ b, b ≠ 0 → Settled g order t b) : settle? g order t = some (settle g order t) := by
  fun_induction settle g order t with
  | case1 t next hlt ih =>
    obtain ⟨k, hk, h⟩ := midway_round ho hs hst
    have hne : next ≠ t := by
      rintro heq
      rw [heq] at hlt
      exact Nat.lt_irrefl _ hlt
    rw [settle?, hs.round?_eq ho hst]
    refine (if_neg hne).trans ((if_pos hlt).trans (ih h.sound fun b hb0 ↦ ?_))
    by_cases hb : b ∈ order
    · exact h.settled b ((List.idxOf_lt_length_of_mem hb).trans_le hk) hb0
    · exact fun p hp ↦ absurd (h.sound.mem b (Option.isSome_iff_exists.mpr ⟨p, hp⟩)) hb
  | case2 t next hge =>
    -- a round that brings no dominator closer to the entry has changed nothing
    have heq : round g order t = t := (round_eq_or_lt ho hs hst).resolve_right hge
    rw [settle?, hs.round?_eq ho hst]
    exact if_pos heq

/-- The dominator tree of a graph is found without a failure. -/
theorem ofTable?_eq (ho : 0 < g.length → SearchOrder g (g.orderFrom 0)) :
    ofTable? g = some (ofTable g) := by
  by_cases hlen : g.length = 0
  · obtain rfl := List.eq_nil_of_length_eq_zero hlen
    decide +kernel
  · have hpos : 0 < g.length := Nat.pos_of_ne_zero hlen
    have ho := ho hpos
    have hall : ∀ b ∈ g.orderFrom 0, b < g.length := fun b hb ↦
      ((ho.mem_iff b).mp hb).lt ho.inRange
    rw [ofTable?, if_neg hlen, Table.orderFrom?_eq ho.inRange hpos]
    refine (if_pos hall).trans ((sound_start ho hpos).settle?_eq ho fun b hb0 p hp ↦ absurd hp ?_)
    rw [start, parent?_set, if_neg (fun h ↦ hb0 h.1)]
    by_cases hlt : b < g.length <;> simp [parent?, List.getD_eq_getElem?_getD, hlt]

/-- The climb from a block of the tree never fails. -/
theorem Sound.ancestors?_eq (hs : Sound g order t) (ho : SearchOrder g order)
    (hb : (t.parent? b).isSome) : ancestors? order t b = some (t.ancestors order b) := by
  fun_induction ancestors order t b with
  | case1 b p hp hlt ih =>
    have hne : p ≠ b := by
      rintro rfl
      exact Nat.lt_irrefl _ hlt
    have hset := (hs.parent b p hp (ho.ne_entry hlt)).2.1
    rw [ancestors?, getElem?_of_lt (lt_of_isSome hb), hp]
    refine (if_neg hne).trans ((if_pos hlt).trans ?_)
    rw [ih hset]
    rfl
  | case2 b p hp hnot =>
    -- only the entry has a parent that is not before it, which is itself
    have hb0 : b = 0 := by
      by_contra hb0
      exact hnot (hs.parent b p hp hb0).1
    have heq : p = b := by
      subst hb0
      exact (Option.some.inj (hs.root.symm.trans hp)).symm
    rw [ancestors?, getElem?_of_lt (lt_of_isSome hb), hp]
    exact if_pos heq
  | case3 b hp => simp [hp] at hb

end DominatorTree
end Wiring.Flow
