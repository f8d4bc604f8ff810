import LinuxStudy.Links
import LinuxStudy.Recency
import Mathlib.Data.List.AList

/-!
# Linked maps

A map from keys to the nodes of a doubly linked list: the map finds the node
of a key, the list keeps the nodes in order. What the two have to do with each
other is `Lists`: the links lead through the nodes between the ends, and the
map has exactly these nodes, each under its own key.

Four operations keep this, and do to the pairs of the list what a cache by
recency asks for: a node is moved behind the front end (`moveAfter`), a new
one is put there (`insertAfter`), the one before the back end is dropped
(`removeBefore`), and the value of a node is changed (`setValue`).
-/

/-- **A linked map**: the links of the nodes, what the nodes carry, and the
map. -/
structure LinkedMap (α κ ν : Type) where
  links : Links α
  key : α → κ
  value : α → ν
  index : AList (fun _ : κ => α)

namespace LinkedMap

variable {α κ ν : Type} [DecidableEq α] [DecidableEq κ]

/-- A node is moved behind the front end. -/
def moveAfter (m : LinkedMap α κ ν) (a x : α) : LinkedMap α κ ν :=
  { m with links := (m.links.unlink x).linkAfter a x }

/-- A node is put behind the front end, with a key and a value. -/
def insertAfter (m : LinkedMap α κ ν) (a x : α) (k : κ) (v : ν) : LinkedMap α κ ν where
  links := m.links.linkAfter a x
  key := Function.update m.key x k
  value := Function.update m.value x v
  index := m.index.insert k x

/-- The node before the back end is dropped. -/
def removeBefore (m : LinkedMap α κ ν) (b : α) : LinkedMap α κ ν :=
  { m with
    links := m.links.unlink (m.links.prev b)
    index := m.index.erase (m.key (m.links.prev b)) }

/-- The value of a node is changed. -/
def setValue (m : LinkedMap α κ ν) (x : α) (v : ν) : LinkedMap α κ ν :=
  { m with value := Function.update m.value x v }

/-- A node is written that is not linked yet. -/
def write (m : LinkedMap α κ ν) (x : α) (k : κ) (v : ν) (n p : α) : LinkedMap α κ ν where
  links := ⟨Function.update m.links.next x n, Function.update m.links.prev x p⟩
  key := Function.update m.key x k
  value := Function.update m.value x v
  index := m.index

/-! ## The pairs in order

What is seen of a linked map from outside are the pairs of its nodes, in the order
of the list. A read that counts as a use moves a pair to the front, a write puts
one there, and an eviction drops the last. The keys of the pairs are distinct
because the map has one node for a key and every node carries the key it is under. -/

/-- The pairs of some nodes. -/
def pairs (m : LinkedMap α κ ν) (ps : List α) : List (κ × ν) :=
  ps.map (fun p => (m.key p, m.value p))

/-- **The list and the map have the same nodes**, each under its own key. -/
structure Lists (m : LinkedMap α κ ν) (a : α) (ps : List α) (b : α) : Prop where
  linked : m.links.Linked a ps b
  nodup : ps.Nodup
  front : a ∉ ps
  back : b ∉ ps
  indexed : ∀ k p, m.index.lookup k = some p ↔ p ∈ ps ∧ m.key p = k

variable {m : LinkedMap α κ ν} {a b x : α} {ps : List α} {k : κ} {v : ν}

omit [DecidableEq α] [DecidableEq κ] in
theorem pairs_keys (m : LinkedMap α κ ν) (ps : List α) :
    (m.pairs ps).map Prod.fst = ps.map m.key := by
  unfold pairs
  rw [List.map_map]
  rfl

omit [DecidableEq α] in
theorem Lists.key_inj (h : m.Lists a ps b) {p q : α} (hp : p ∈ ps) (hq : q ∈ ps)
    (hkey : m.key p = m.key q) : p = q := by
  have h₁ := (h.indexed (m.key q) p).mpr ⟨hp, hkey⟩
  have h₂ := (h.indexed (m.key q) q).mpr ⟨hq, rfl⟩
  exact Option.some.inj (h₁.symm.trans h₂)

omit [DecidableEq α] in
theorem Lists.keys_nodup (h : m.Lists a ps b) : ((m.pairs ps).map Prod.fst).Nodup := by
  rw [pairs_keys]
  exact h.nodup.map_on (fun _ hp _ hq hkey => h.key_inj hp hq hkey)

omit [DecidableEq α] in
theorem Lists.mem_keys_iff (h : m.Lists a ps b) :
    k ∈ (m.pairs ps).map Prod.fst ↔ k ∈ m.index := by
  rw [pairs_keys, List.mem_map, ← AList.lookup_isSome, Option.isSome_iff_exists]
  exact exists_congr (fun p => (h.indexed k p).symm)

omit [DecidableEq α] in
theorem Lists.length_keys (h : m.Lists a ps b) : m.index.keys.length = ps.length := by
  have hperm : m.index.keys.Perm ((m.pairs ps).map Prod.fst) := by
    refine (List.perm_ext_iff_of_nodup m.index.keys_nodup h.keys_nodup).mpr (fun k => ?_)
    exact h.mem_keys_iff.symm
  rw [hperm.length_eq, pairs_keys, List.length_map]

omit [DecidableEq α] in
/-- **The value found for a key** is that of the node the map has for it. -/
theorem Lists.find_pairs (h : m.Lists a ps b) (k : κ) :
    Recency.find (m.pairs ps) k = (m.index.lookup k).map m.value := by
  cases hk : m.index.lookup k with
  | none =>
    refine Recency.find_eq_none_iff.mpr (fun hmem => ?_)
    exact AList.lookup_eq_none.mp hk (h.mem_keys_iff.mp hmem)
  | some p =>
    obtain ⟨hp, rfl⟩ := (h.indexed k p).mp hk
    refine (Recency.find_eq_some_iff h.keys_nodup).mpr ?_
    exact List.mem_map.mpr ⟨p, hp, rfl⟩

/-- The pairs of the other nodes are those of the other keys. -/
theorem Lists.pairs_erase (h : m.Lists a ps b) (hx : x ∈ ps) :
    m.pairs (ps.erase x) = Recency.without (m.pairs ps) (m.key x) := by
  unfold pairs Recency.without
  rw [h.nodup.erase_eq_filter, List.filter_map]
  refine congrArg _ (List.filter_congr (fun p hp => ?_))
  have hiff : p ≠ x ↔ m.key p ≠ m.key x :=
    not_congr ⟨fun hpx => congrArg m.key hpx, h.key_inj hp hx⟩
  show (p != x) = decide (m.key p ≠ m.key x)
  rw [Bool.eq_iff_iff, bne_iff_ne, decide_eq_true_iff]
  exact hiff

omit [DecidableEq α] in
theorem Lists.ne_ends (h : m.Lists a ps b) (hx : x ∈ ps) : x ≠ a ∧ x ≠ b := by
  refine ⟨?_, ?_⟩
  · rintro rfl
    exact h.front hx
  · rintro rfl
    exact h.back hx

theorem Lists.linked_unlink (h : m.Lists a ps b) (hx : x ∈ ps) :
    (m.links.unlink x).Linked a (ps.erase x) b := by
  obtain ⟨l₁, l₂, -, hps, herase⟩ := List.exists_erase_eq hx
  rw [herase]
  exact Links.Linked.unlink (hps ▸ h.linked) (hps ▸ h.front) (hps ▸ h.back) (hps ▸ h.nodup)

/-! ## The operations -/

/-- **A node moved to the front.** -/
theorem Lists.moveAfter (h : m.Lists a ps b) (hx : x ∈ ps) :
    (m.moveAfter a x).Lists a (x :: ps.erase x) b := by
  have hnot : x ∉ ps.erase x := fun hmem => (h.nodup.mem_erase_iff.mp hmem).1 rfl
  have hfront : a ∉ ps.erase x := fun hmem => h.front (List.mem_of_mem_erase hmem)
  have hback : b ∉ ps.erase x := fun hmem => h.back (List.mem_of_mem_erase hmem)
  obtain ⟨hxa, hxb⟩ := h.ne_ends hx
  refine ⟨?_, ?_, ?_, ?_, fun k p => ?_⟩
  · exact (h.linked_unlink hx).linkAfter hfront hback (h.nodup.erase x) hxa hxb hnot
  · exact List.nodup_cons.mpr ⟨hnot, h.nodup.erase x⟩
  · exact fun hmem => (List.mem_cons.mp hmem).elim (fun hax => hxa hax.symm) hfront
  · exact fun hmem => (List.mem_cons.mp hmem).elim (fun hbx => hxb hbx.symm) hback
  · refine (h.indexed k p).trans (and_congr_left' ?_)
    exact (List.perm_cons_erase hx).mem_iff

theorem Lists.pairs_moveAfter (h : m.Lists a ps b) (hx : x ∈ ps) :
    (m.moveAfter a x).pairs (x :: ps.erase x) = Recency.touch (m.pairs ps) (m.key x) := by
  have hfind : Recency.find (m.pairs ps) (m.key x) = some (m.value x) := by
    rw [h.find_pairs, (h.indexed _ _).mpr ⟨hx, rfl⟩]
    rfl
  rw [Recency.touch_of_find hfind, ← h.pairs_erase hx]
  rfl

/-- **A node that is not in the list may be written.** -/
theorem Lists.write (h : m.Lists a ps b) (hx : x ∉ ps) (hxa : x ≠ a) (hxb : x ≠ b)
    (k : κ) (v : ν) (n p : α) :
    (m.write x k v n p).Lists a ps b ∧ (m.write x k v n p).pairs ps = m.pairs ps := by
  have hother : ∀ q ∈ ps, q ≠ x := by
    rintro q hq rfl
    exact hx hq
  have hlinked : (m.write x k v n p).links.Linked a ps b := by
    refine h.linked.congr (fun q hq => ?_) (fun q hq => ?_)
    · refine Function.update_of_ne ?_ _ _
      exact (List.mem_cons.mp hq).elim (fun hqa => hqa ▸ hxa.symm) (hother q)
    · refine Function.update_of_ne ?_ _ _
      exact (List.mem_cons.mp hq).elim (fun hqb => hqb ▸ hxb.symm) (hother q)
  refine ⟨⟨hlinked, h.nodup, h.front, h.back, fun j q => ?_⟩, ?_⟩
  · refine (h.indexed j q).trans (and_congr_right (fun hq => ?_))
    show m.key q = j ↔ Function.update m.key x k q = j
    rw [Function.update_of_ne (hother q hq)]
  · refine List.map_congr_left (fun q hq => ?_)
    show (Function.update m.key x k q, Function.update m.value x v q) = _
    rw [Function.update_of_ne (hother q hq), Function.update_of_ne (hother q hq)]

/-- **A new node put to the front.** -/
theorem Lists.insertAfter (h : m.Lists a ps b) (hx : x ∉ ps) (hxa : x ≠ a) (hxb : x ≠ b)
    (hk : k ∉ m.index) (v : ν) : (m.insertAfter a x k v).Lists a (x :: ps) b := by
  refine ⟨?_, ?_, ?_, ?_, fun j p => ?_⟩
  · exact h.linked.linkAfter h.front h.back h.nodup hxa hxb hx
  · exact List.nodup_cons.mpr ⟨hx, h.nodup⟩
  · exact fun hmem => (List.mem_cons.mp hmem).elim (fun hax => hxa hax.symm) h.front
  · exact fun hmem => (List.mem_cons.mp hmem).elim (fun hbx => hxb hbx.symm) h.back
  · show (m.index.insert k x).lookup j = some p ↔ p ∈ x :: ps ∧ Function.update m.key x k p = j
    by_cases hpx : p = x
    · rw [hpx, Function.update_self]
      by_cases hjk : j = k
      · rw [hjk, AList.lookup_insert]
        exact iff_of_true rfl ⟨List.mem_cons_self, rfl⟩
      · rw [AList.lookup_insert_ne hjk, h.indexed]
        exact iff_of_false (fun hmem => hx hmem.1) (fun hmem => hjk hmem.2.symm)
    · rw [Function.update_of_ne hpx, List.mem_cons, or_iff_right hpx]
      by_cases hjk : j = k
      · rw [hjk, AList.lookup_insert]
        refine iff_of_false (fun hxp => hpx (Option.some.inj hxp).symm) (fun hmem => hk ?_)
        exact AList.lookup_isSome.mp (Option.isSome_iff_exists.mpr ⟨p, (h.indexed k p).mpr hmem⟩)
      · rw [AList.lookup_insert_ne hjk]
        exact h.indexed j p

theorem pairs_insertAfter (m : LinkedMap α κ ν) (a : α) (hx : x ∉ ps) (k : κ) (v : ν) :
    (m.insertAfter a x k v).pairs (x :: ps) = (k, v) :: m.pairs ps := by
  have hrest : ∀ p ∈ ps, p ≠ x := by
    rintro p hp rfl
    exact hx hp
  unfold pairs insertAfter
  simp only [List.map_cons, Function.update_self]
  refine congrArg _ (List.map_congr_left (fun p hp => ?_))
  rw [Function.update_of_ne (hrest p hp), Function.update_of_ne (hrest p hp)]

/-- **The last node dropped.** -/
theorem Lists.removeBefore (h : m.Lists a (ps ++ [x]) b) :
    (m.removeBefore b).Lists a ps b := by
  have hlast : m.links.prev b = x := h.linked.prev_end
  have hx : x ∈ ps ++ [x] := List.mem_append_right ps List.mem_cons_self
  have hnot : x ∉ ps := fun hmem =>
    (List.nodup_append.mp h.nodup).2.2 x hmem x List.mem_cons_self rfl
  have herase : (ps ++ [x]).erase x = ps := by
    rw [List.erase_append_right _ hnot, List.erase_cons_head, List.append_nil]
  refine ⟨?_, ?_, ?_, ?_, fun k p => ?_⟩
  · show (m.links.unlink (m.links.prev b)).Linked a ps b
    rw [hlast]
    have hlinked := h.linked_unlink hx
    rwa [herase] at hlinked
  · exact (List.nodup_append.mp h.nodup).1
  · exact fun hmem => h.front (List.mem_append_left [x] hmem)
  · exact fun hmem => h.back (List.mem_append_left [x] hmem)
  · show (m.index.erase (m.key (m.links.prev b))).lookup k = some p ↔ p ∈ ps ∧ m.key p = k
    rw [hlast]
    by_cases hk : k = m.key x
    · rw [hk, AList.lookup_erase]
      refine iff_of_false (fun hno => Option.some_ne_none p hno.symm) ?_
      rintro ⟨hp, hkey⟩
      obtain rfl := h.key_inj (List.mem_append_left [x] hp) hx hkey
      exact hnot hp
    · rw [AList.lookup_erase_ne hk, h.indexed, List.mem_append, List.mem_singleton]
      refine and_congr_left (fun hkey => or_iff_left ?_)
      rintro rfl
      exact hk hkey.symm

theorem pairs_removeBefore (m : LinkedMap α κ ν) (ps : List α) (x b : α) :
    (m.removeBefore b).pairs ps = (m.pairs (ps ++ [x])).dropLast := by
  unfold pairs
  rw [List.map_append, List.map_singleton, List.dropLast_concat]
  rfl

/-- **The value of a node changed.** -/
theorem Lists.setValue (h : m.Lists a ps b) (x : α) (v : ν) : (m.setValue x v).Lists a ps b :=
  ⟨h.linked, h.nodup, h.front, h.back, h.indexed⟩

/-- Changing the value of a node and moving it to the front is a write of its
key. -/
theorem Lists.pairs_setValue_moveAfter (h : m.Lists a ps b) (hx : x ∈ ps) (v : ν) :
    ((m.setValue x v).moveAfter a x).pairs (x :: ps.erase x)
      = (m.key x, v) :: Recency.without (m.pairs ps) (m.key x) := by
  rw [← h.pairs_erase hx]
  show (m.key x, Function.update m.value x v x)
    :: (ps.erase x).map (fun p => (m.key p, Function.update m.value x v p)) = _
  rw [Function.update_self]
  refine congrArg _ (List.map_congr_left (fun p hp => ?_))
  rw [Function.update_of_ne (h.nodup.mem_erase_iff.mp hp).1]

omit [DecidableEq α] in
/-- **A write of a key that is not there**, by recency: the pair comes first,
and the last one goes if there is no room. -/
theorem Lists.put_pairs_of_absent (h : m.Lists a ps b) (hk : k ∉ m.index) (n : ℤ) (v : ν) :
    Recency.put n (m.pairs ps) k v
      = if n ≤ ps.length then ((k, v) :: m.pairs ps).dropLast else (k, v) :: m.pairs ps := by
  unfold Recency.put Recency.trim
  rw [Recency.without_of_notMem (fun hmem => hk (h.mem_keys_iff.mp hmem)), List.length_cons,
    pairs, List.length_map]
  exact if_congr (by push_cast; exact Int.lt_add_one_iff) rfl rfl

/-- **A write of a key that is there**, by recency: its node gets the value and
comes first, and there is room for what was there before. -/
theorem Lists.put_pairs_of_mem (h : m.Lists a ps b) (hx : x ∈ ps) {n : ℤ}
    (hroom : (ps.length : ℤ) ≤ n) (v : ν) :
    Recency.put n (m.pairs ps) (m.key x) v
      = ((m.setValue x v).moveAfter a x).pairs (x :: ps.erase x) := by
  have hpairs := h.pairs_setValue_moveAfter hx v
  have hlen : ((m.key x, v) :: Recency.without (m.pairs ps) (m.key x)).length = ps.length := by
    rw [← hpairs, pairs, List.length_map]
    exact (List.perm_cons_erase hx).length_eq.symm
  unfold Recency.put Recency.trim
  rw [hpairs, hlen, if_neg (not_lt.mpr hroom)]

/-- **Moving the first node to the front** changes nothing. -/
theorem Lists.moveAfter_first (h : m.Lists a (x :: ps) b) : m.moveAfter a x = m := by
  obtain ⟨hxa, hxb⟩ := h.ne_ends List.mem_cons_self
  unfold LinkedMap.moveAfter
  rw [h.linked.relink_first hxa hxb (List.nodup_cons.mp h.nodup).1]

end LinkedMap
