import LinuxStudy.LinkedMap
import LinuxStudy.LRUCache
import LinuxStudy.Runs

/-!
# The cache keeps its entries by recency

`LRUCache` on its heap is a linked map between the sentinels `head` and
`tail` (`view`), and each of its helpers is an operation of linked maps: the
assignments of `removeNode` take a node out, those of `addToHead` put one
behind `head`. So `put` and `get` do what the cache by recency does, one
operation after the other (`perform_spec`), whatever the capacity. The
capacity may even be negative, and the cache then holds nothing, as it does
with capacity `0`.

The order of the cache is what a walk from `head` along `next` meets
(`order`), for as many steps as the map has keys. That the walk ends at
`tail`, that the nodes it meets are those of the map, and that the counter
counts them is `WellLinked`.
-/

namespace Dcs

namespace LRUCache

open Recency (Op)

/-- The cache as a linked map. -/
def view (c : LRUCache) : LinkedMap ℕ Bytes Bytes where
  links := ⟨fun p => (c.nodes p).next, fun p => (c.nodes p).prev⟩
  key := fun p => (c.nodes p).key
  value := fun p => (c.nodes p).value
  index := c.cache

/-- The nodes from `head` on, the most recent first. -/
def order (c : LRUCache) : List ℕ := c.view.links.walk c.cache.keys.length head

/-- The pairs the cache holds, the most recent first. -/
def contents (c : LRUCache) : List (Bytes × Bytes) := c.view.pairs c.order

/-- One operation, with what a `get` answers. -/
def perform (c : LRUCache) : Op Bytes Bytes → LRUCache × Option Bytes
  | .put key value => (c.put key value, none)
  | .get key flag => ((c.get key flag).1, some (c.get key flag).2)

/-- **The list and the map belong together**: the links lead from `head`
through the nodes to `tail` and back, the keys of the nodes are distinct and
are those of the map, which has each at its node, and the counter counts the
nodes, of which there are no more than the capacity. -/
structure WellLinked (c : LRUCache) : Prop where
  linked : c.view.links.Linked head c.order tail
  /-- No node is an end of the list, or null. -/
  inner : ∀ p ∈ c.order, p ≠ null ∧ p ≠ head ∧ p ≠ tail
  distinct : (c.order.map (fun p => (c.nodes p).key)).Nodup
  cached : ∀ key p, c.cache.lookup key = some p ↔ p ∈ c.order ∧ (c.nodes p).key = key
  counted : c.size = c.order.length
  bounded : c.size ≤ c.capacity

/-! ## What the helpers do to the linked map

Each helper is a sequence of assignments, and each assignment is one write to one
node. Put together they are the operation of linked maps of the same name,
whatever the nodes are, as long as the pointers that are followed are those of the
list. -/

/-- One node is written. -/
theorem view_update (c : LRUCache) (p : ℕ) (n : DLinkedNode) :
    LRUCache.view { c with nodes := Function.update c.nodes p n }
      = { links := ⟨Function.update c.view.links.next p n.next,
            Function.update c.view.links.prev p n.prev⟩
          key := Function.update c.view.key p n.key
          value := Function.update c.view.value p n.value
          index := c.cache } := by
  have hnode : ∀ r, Function.update c.nodes p n r
      = ⟨Function.update c.view.key p n.key r, Function.update c.view.value p n.value r,
        Function.update c.view.links.prev p n.prev r,
        Function.update c.view.links.next p n.next r⟩ := by
    intro r
    by_cases hr : r = p
    · rw [hr]
      simp only [Function.update_self]
    · simp only [Function.update_of_ne hr]
      rfl
  unfold view
  simp only [hnode]
  rfl

theorem view_setPrev (c : LRUCache) (p q : ℕ) :
    (c.setPrev p q).view
      = { c.view with
          links := { c.view.links with prev := Function.update c.view.links.prev p q } } := by
  refine (view_update c p _).trans ?_
  show LinkedMap.mk ⟨Function.update _ p (c.view.links.next p), _⟩
    (Function.update _ p (c.view.key p)) (Function.update _ p (c.view.value p)) _ = _
  simp only [Function.update_eq_self]
  rfl

theorem view_setNext (c : LRUCache) (p q : ℕ) :
    (c.setNext p q).view
      = { c.view with
          links := { c.view.links with next := Function.update c.view.links.next p q } } := by
  refine (view_update c p _).trans ?_
  show LinkedMap.mk ⟨_, Function.update _ p (c.view.links.prev p)⟩
    (Function.update _ p (c.view.key p)) (Function.update _ p (c.view.value p)) _ = _
  simp only [Function.update_eq_self]
  rfl

theorem view_setValue (c : LRUCache) (p : ℕ) (v : Bytes) :
    (c.setValue p v).view = c.view.setValue p v := by
  refine (view_update c p _).trans ?_
  show LinkedMap.mk ⟨Function.update _ p (c.view.links.next p),
    Function.update _ p (c.view.links.prev p)⟩ (Function.update _ p (c.view.key p)) _ _ = _
  simp only [Function.update_eq_self]
  rfl

/-- **`removeNode` takes a node out.** -/
theorem view_removeNode (c : LRUCache) (node : ℕ) :
    (c.removeNode node).view = { c.view with links := c.view.links.unlink node } := by
  -- the second assignment reads `next` after the first, which may have written it
  have hnext : ((c.setNext (c.nodes node).prev (c.nodes node).next).nodes node).next
      = (c.nodes node).next := by
    show (c.setNext _ _).view.links.next node = _
    rw [view_setNext]
    show Function.update c.view.links.next _ _ node = _
    by_cases h : node = (c.nodes node).prev
    · rw [← h, Function.update_self]
    · rw [Function.update_of_ne h]
      rfl
  have hprev : ((c.setNext (c.nodes node).prev (c.nodes node).next).nodes node).prev
      = (c.nodes node).prev := by
    show (c.setNext _ _).view.links.prev node = _
    rw [view_setNext]
    rfl
  unfold removeNode
  dsimp only
  rw [hnext, hprev, view_setPrev, view_setNext]
  rfl

/-- **`addToHead` puts a node behind `head`.** -/
theorem view_addToHead (c : LRUCache) {node : ℕ} (h : node ≠ head) :
    (c.addToHead node).view = { c.view with links := c.view.links.linkAfter head node } := by
  have h₁ : ((c.setPrev node head).nodes head).next = (c.nodes head).next := by
    show (c.setPrev node head).view.links.next head = _
    rw [view_setPrev]
    rfl
  have h₂ : (((c.setPrev node head).setNext node (c.nodes head).next).nodes head).next
      = (c.nodes head).next := by
    show (LRUCache.view _).links.next head = _
    rw [view_setNext, view_setPrev]
    exact Function.update_of_ne h.symm _ _
  unfold addToHead
  dsimp only
  rw [h₁, h₂, view_setNext, view_setPrev, view_setNext, view_setPrev]
  rfl

/-- **`moveToHead` moves a node behind `head`.** -/
theorem view_moveToHead (c : LRUCache) {node : ℕ} (h : node ≠ head) :
    (c.moveToHead node).view = c.view.moveAfter head node := by
  unfold moveToHead
  rw [view_addToHead _ h, view_removeNode]
  rfl

/-- **A new key is put behind `head`.** -/
theorem view_insertNode (c : LRUCache) (key value : Bytes) (h : c.fresh ≠ head) :
    (c.insertNode key value).view = c.view.insertAfter head c.fresh key value := by
  have hfile : (c.fileNode key value).view
      = { LRUCache.view { c with nodes := Function.update c.nodes c.fresh ⟨key, value, null, null⟩ }
          with index := c.cache.insert key c.fresh } := rfl
  show ((c.fileNode key value).addToHead c.fresh).view = _
  rw [view_addToHead _ h, hfile, view_update]
  -- the links of the new node are null before it is linked
  unfold LinkedMap.insertAfter Links.linkAfter
  dsimp only
  rw [Function.update_idem, Function.update_idem, Function.update_of_ne h.symm]
  rfl

/-- **An eviction drops the node before `tail`.** -/
theorem view_evict (c : LRUCache) : c.evict.view = c.view.removeBefore tail := by
  have hview := view_removeNode c (c.nodes tail).prev
  have hkey : ((c.removeNode (c.nodes tail).prev).nodes (c.nodes tail).prev).key
      = (c.nodes (c.nodes tail).prev).key :=
    (linksOnly_removeNode c _).key _
  have hcache : (c.removeNode (c.nodes tail).prev).cache = c.cache :=
    (linksOnly_removeNode c _).cache
  show LinkedMap.mk (c.removeNode (c.nodes tail).prev).view.links _ _
    ((c.removeNode (c.nodes tail).prev).cache.erase _) = _
  rw [hkey, hcache, hview]
  show LinkedMap.mk _ (c.removeNode (c.nodes tail).prev).view.key
    (c.removeNode (c.nodes tail).prev).view.value _ = _
  rw [hview]
  rfl

/-! ## One operation

The invariant names the nodes between the sentinels. A key that is there is moved
to the front; one that is not there comes to the front as a new node, and when
there are too many the node before `tail` goes. That node is the least recent one,
and its key is taken out of the map, so that map and list have the same keys
again. -/

/-- **The nodes between the sentinels**, the most recent first: the invariant
the operations keep. -/
structure Lists (c : LRUCache) (ps : List ℕ) : Prop where
  lists : c.view.Lists head ps tail
  /-- The nodes were allocated after the sentinels. -/
  allocated : ∀ p ∈ ps, tail < p ∧ p < c.fresh
  fresh : tail < c.fresh
  counted : c.size = ps.length
  bounded : c.size ≤ max c.capacity 0

variable {c d : LRUCache} {ps : List ℕ}

theorem Lists.order_eq (h : c.Lists ps) : c.order = ps := by
  unfold order
  have hlen : c.cache.keys.length = ps.length := h.lists.length_keys
  rw [hlen]
  exact h.lists.linked.walk_eq

theorem Lists.contents_eq (h : c.Lists ps) : c.contents = c.view.pairs ps := by
  unfold contents
  rw [h.order_eq]

theorem lists_new (capacity : ℤ) : (new capacity).Lists [] := by
  refine ⟨⟨⟨rfl, rfl⟩, List.nodup_nil, List.not_mem_nil, List.not_mem_nil, fun key p => ?_⟩,
    fun p hp => absurd hp List.not_mem_nil, Nat.lt_succ_self _, rfl, le_max_right _ _⟩
  exact iff_of_false (fun h => Option.some_ne_none p h.symm) (fun h => List.not_mem_nil h.1)

/-- A node of the list is moved to the front. -/
theorem Lists.moveToHead (h : c.Lists ps) {node : ℕ} (hnode : node ∈ ps) :
    (c.moveToHead node).Lists (node :: ps.erase node) := by
  have hne : node ≠ head := (h.lists.ne_ends hnode).1
  have hlinks := linksOnly_moveToHead c node
  have hperm : List.Perm ps (node :: ps.erase node) := List.perm_cons_erase hnode
  refine ⟨?_, fun p hp => ?_, ?_, ?_, ?_⟩
  · rw [view_moveToHead c hne]
    exact h.lists.moveAfter hnode
  · rw [hlinks.fresh]
    exact h.allocated p (hperm.mem_iff.mpr hp)
  · rw [hlinks.fresh]
    exact h.fresh
  · rw [hlinks.size, h.counted, hperm.length_eq]
  · rw [hlinks.size, hlinks.capacity]
    exact h.bounded

theorem Lists.setValue (h : c.Lists ps) (node : ℕ) (value : Bytes) :
    (c.setValue node value).Lists ps := by
  refine ⟨?_, h.allocated, h.fresh, h.counted, h.bounded⟩
  rw [view_setValue]
  exact h.lists.setValue node value

theorem Lists.fresh_ne (h : c.Lists ps) : c.fresh ∉ ps ∧ c.fresh ≠ head ∧ c.fresh ≠ tail := by
  refine ⟨fun hmem => lt_irrefl _ (h.allocated _ hmem).2, ?_, ?_⟩
  · have hlt : head < c.fresh := lt_trans (by decide) h.fresh
    exact hlt.ne'
  · exact h.fresh.ne'

/-- **`get` reads and uses as the cache by recency does.** -/
theorem Lists.get (h : c.Lists ps) (key : Bytes) (flag : Bool) :
    ∃ qs, (c.get key flag).1.Lists qs
      ∧ (c.get key flag).1.view.pairs qs
        = (if flag then Recency.touch (c.view.pairs ps) key else c.view.pairs ps)
      ∧ (c.get key flag).2 = (Recency.find (c.view.pairs ps) key).getD []
      ∧ (c.get key flag).1.capacity = c.capacity := by
  have hanswer : (c.get key flag).2 = (Recency.find (c.view.pairs ps) key).getD [] := by
    rw [get_snd, h.lists.find_pairs]
    rfl
  cases hlook : c.cache.lookup key with
  | none =>
    have hno : key ∉ (c.view.pairs ps).map Prod.fst := fun hmem =>
      AList.lookup_eq_none.mp hlook (h.lists.mem_keys_iff.mp hmem)
    have hget : (c.get key flag).1 = c := by
      unfold LRUCache.get
      rw [hlook]
    rw [hanswer, hget, Recency.touch_of_notMem hno, ite_self]
    exact ⟨ps, h, rfl, rfl, rfl⟩
  | some node =>
    obtain ⟨hnode, rfl⟩ := (h.lists.indexed key node).mp hlook
    have hget : (c.get (c.view.key node) flag).1 = if flag then c.moveToHead node else c := by
      unfold LRUCache.get
      rw [hlook]
    rw [hanswer, hget]
    cases flag with
    | false => exact ⟨ps, h, rfl, rfl, rfl⟩
    | true =>
      refine ⟨node :: ps.erase node, h.moveToHead hnode, ?_, rfl,
        (linksOnly_moveToHead c node).capacity⟩
      show (c.moveToHead node).view.pairs _ = _
      rw [view_moveToHead c (h.lists.ne_ends hnode).1]
      exact h.lists.pairs_moveAfter hnode

/-- A new key goes to the front. -/
theorem Lists.insertNode (h : c.Lists ps) {key : Bytes} (hkey : key ∉ c.cache) (value : Bytes) :
    (c.insertNode key value).view.Lists head (c.fresh :: ps) tail
      ∧ (c.insertNode key value).view.pairs (c.fresh :: ps) = (key, value) :: c.view.pairs ps
      ∧ (∀ p ∈ c.fresh :: ps, tail < p ∧ p < (c.insertNode key value).fresh)
      ∧ (c.insertNode key value).size = c.size + 1
      ∧ (c.insertNode key value).capacity = c.capacity := by
  obtain ⟨hnot, hhead, htail⟩ := h.fresh_ne
  have hlinks : LinksOnly (c.fileNode key value) ((c.fileNode key value).addToHead c.fresh) :=
    linksOnly_addToHead _ c.fresh
  have hfresh : (c.insertNode key value).fresh = c.fresh + 1 := hlinks.fresh
  refine ⟨?_, ?_, fun p hp => ?_, ?_, hlinks.capacity⟩
  · rw [view_insertNode c key value hhead]
    exact h.lists.insertAfter hnot hhead htail hkey value
  · rw [view_insertNode c key value hhead]
    exact LinkedMap.pairs_insertAfter c.view head hnot key value
  · rw [hfresh]
    rcases List.mem_cons.mp hp with rfl | hp
    · exact ⟨h.fresh, Nat.lt_succ_self _⟩
    · exact ⟨(h.allocated p hp).1, Nat.lt_succ_of_lt (h.allocated p hp).2⟩
  · show ((c.fileNode key value).addToHead c.fresh).size + 1 = _
    rw [hlinks.size]
    rfl

/-- The least recent node goes. -/
theorem Lists.evict {p : ℕ} (h : c.view.Lists head (ps ++ [p]) tail) :
    c.evict.view.Lists head ps tail ∧ c.evict.view.pairs ps = (c.view.pairs (ps ++ [p])).dropLast
      ∧ c.evict.size = c.size - 1 ∧ c.evict.fresh = c.fresh ∧ c.evict.capacity = c.capacity := by
  have hlinks := linksOnly_removeNode c (c.nodes tail).prev
  refine ⟨?_, ?_, ?_, hlinks.fresh, hlinks.capacity⟩
  · rw [view_evict]
    exact h.removeBefore
  · rw [view_evict]
    exact LinkedMap.pairs_removeBefore c.view ps p tail
  · show (c.removeNode (c.nodes tail).prev).size - 1 = _
    rw [hlinks.size]

/-- **`put` of a key that is not there.** -/
theorem Lists.put_absent (h : c.Lists ps) {key : Bytes} (hkey : key ∉ c.cache) (value : Bytes) :
    ∃ qs, (c.put key value).Lists qs
      ∧ (c.put key value).view.pairs qs = Recency.put c.capacity (c.view.pairs ps) key value
      ∧ (c.put key value).capacity = c.capacity := by
  have hbounded := h.bounded
  have hcounted := h.counted
  have hput : c.put key value
      = if (c.insertNode key value).size > (c.insertNode key value).capacity
        then (c.insertNode key value).evict else c.insertNode key value := by
    unfold LRUCache.put
    rw [AList.lookup_eq_none.mpr hkey]
  obtain ⟨hlists, hpairs, halloc, hsize, hcap⟩ := h.insertNode hkey value
  have hfresh : tail < (c.insertNode key value).fresh :=
    lt_trans (halloc _ List.mem_cons_self).1 (halloc _ List.mem_cons_self).2
  rw [hput, hsize, hcap, hcounted, h.lists.put_pairs_of_absent hkey]
  by_cases hfull : c.capacity ≤ ps.length
  · rw [if_pos (Int.lt_add_one_of_le hfull), if_pos hfull]
    -- the list is not empty: the new node is in it
    obtain ⟨qs, p, hqs⟩ : ∃ qs p, c.fresh :: ps = qs ++ [p] :=
      (List.eq_nil_or_concat' (c.fresh :: ps)).resolve_left (List.cons_ne_nil _ _)
    rw [hqs] at hlists hpairs halloc
    obtain ⟨hlists', hpairs', hsize', hfresh', hcap'⟩ := Lists.evict hlists
    have hqlen : qs.length = ps.length := by
      have hboth := congrArg List.length hqs
      rw [List.length_cons, List.length_append, List.length_singleton] at hboth
      omega
    refine ⟨qs, ⟨hlists', fun q hq => ?_, ?_, ?_, ?_⟩, ?_, hcap'.trans hcap⟩
    · rw [hfresh']
      exact halloc q (List.mem_append_left [p] hq)
    · rw [hfresh']
      exact hfresh
    · rw [hsize', hsize, hqlen, hcounted]
      omega
    · rw [hsize', hsize, hcap', hcap]
      omega
    · rw [hpairs', hpairs]
  · rw [if_neg (fun hc => hfull (Int.lt_add_one_iff.mp hc)), if_neg hfull]
    refine ⟨c.fresh :: ps, ⟨hlists, halloc, hfresh, ?_, ?_⟩, hpairs, hcap⟩
    · rw [hsize, hcounted, List.length_cons]
      push_cast
      rfl
    · rw [hsize, hcap, hcounted]
      omega

/-- **`put` of a key that is there.** -/
theorem Lists.put_present (h : c.Lists ps) {node : ℕ} (hnode : node ∈ ps) (value : Bytes) :
    (c.put (c.view.key node) value).Lists (node :: ps.erase node)
      ∧ (c.put (c.view.key node) value).view.pairs (node :: ps.erase node)
        = Recency.put c.capacity (c.view.pairs ps) (c.view.key node) value
      ∧ (c.put (c.view.key node) value).capacity = c.capacity := by
  have hlook : c.cache.lookup (c.view.key node) = some node :=
    (h.lists.indexed _ node).mpr ⟨hnode, rfl⟩
  have hput : c.put (c.view.key node) value = (c.setValue node value).moveToHead node := by
    unfold LRUCache.put
    rw [hlook]
  -- a cache that holds a node has a positive capacity, so nothing is dropped
  have hroom : (ps.length : ℤ) ≤ c.capacity := by
    have hbounded := h.bounded
    have hcounted := h.counted
    have hpos : 0 < ps.length := List.length_pos_of_mem hnode
    omega
  rw [hput]
  refine ⟨(h.setValue node value).moveToHead hnode, ?_, (linksOnly_moveToHead _ node).capacity⟩
  rw [h.lists.put_pairs_of_mem hnode hroom, view_moveToHead _ (h.lists.ne_ends hnode).1,
    view_setValue]

/-- **`put` writes as the cache by recency does.** -/
theorem Lists.put (h : c.Lists ps) (key value : Bytes) :
    ∃ qs, (c.put key value).Lists qs
      ∧ (c.put key value).view.pairs qs = Recency.put c.capacity (c.view.pairs ps) key value
      ∧ (c.put key value).capacity = c.capacity := by
  cases hlook : c.cache.lookup key with
  | none => exact h.put_absent (AList.lookup_eq_none.mp hlook) value
  | some node =>
    obtain ⟨hnode, rfl⟩ := (h.lists.indexed key node).mp hlook
    exact ⟨node :: ps.erase node, h.put_present hnode value⟩

/-- **One operation** does what the cache by recency does, and answers as it
does. -/
theorem perform_spec (h : c.Lists ps) (op : Op Bytes Bytes) :
    ∃ qs, (c.perform op).1.Lists qs
      ∧ (c.perform op).1.view.pairs qs = (Recency.perform c.capacity [] (c.view.pairs ps) op).1
      ∧ (c.perform op).2 = (Recency.perform c.capacity [] (c.view.pairs ps) op).2
      ∧ (c.perform op).1.capacity = c.capacity := by
  cases op with
  | put key value =>
    obtain ⟨qs, hqs, hpairs, hcap⟩ := h.put key value
    exact ⟨qs, hqs, hpairs, rfl, hcap⟩
  | get key flag =>
    obtain ⟨qs, hqs, hpairs, hanswer, hcap⟩ := h.get key flag
    exact ⟨qs, hqs, hpairs, congrArg some hanswer, hcap⟩

/-! ## Runs -/

/-- A cache of a capacity that holds pairs in an order. -/
def Holds (capacity : ℤ) (c : LRUCache) (l : List (Bytes × Bytes)) : Prop :=
  c.capacity = capacity ∧ ∃ ps, c.Lists ps ∧ c.view.pairs ps = l

/-- **A run of operations** leaves the pairs the cache by recency has, and
gives the same answers. -/
theorem answers_perform (capacity : ℤ) (ops : List (Op Bytes Bytes)) :
    Holds capacity (Runs.answers perform (new capacity) ops).1
        (Runs.answers (Recency.perform capacity []) [] ops).1
      ∧ (Runs.answers perform (new capacity) ops).2
        = (Runs.answers (Recency.perform capacity []) [] ops).2 := by
  have hstep : ∀ {c : LRUCache} {l : List (Bytes × Bytes)} {op : Op Bytes Bytes},
      Holds capacity c l → (True ↔ Holds capacity (c.perform op).1
          (Recency.perform capacity [] l op).1
        ∧ (c.perform op).2 = (Recency.perform capacity [] l op).2) := by
    rintro c l op ⟨rfl, ps, hps, rfl⟩
    obtain ⟨qs, hqs, hpairs, hanswer, hcap⟩ := perform_spec hps op
    exact iff_of_true trivial ⟨⟨hcap, qs, hqs, hpairs⟩, hanswer⟩
  have hnew : Holds capacity (new capacity) [] := ⟨rfl, [], lists_new capacity, rfl⟩
  exact (Runs.guarded_iff_lockstep hstep hnew).mp (Runs.guarded_true _ ops) ops
    (List.prefix_refl ops)

/-- What the invariant says of a cache with a capacity that is not
negative. -/
theorem Lists.wellLinked (h : c.Lists ps) (hcap : 0 ≤ c.capacity) : c.WellLinked := by
  have horder : c.order = ps := h.order_eq
  refine ⟨?_, ?_, ?_, ?_, ?_, ?_⟩
  · rw [horder]
    exact h.lists.linked
  · rw [horder]
    intro p hp
    have hnull : null < p := lt_trans (by decide) (h.allocated p hp).1
    exact ⟨hnull.ne', (h.lists.ne_ends hp).1, (h.lists.ne_ends hp).2⟩
  · rw [horder]
    have hdistinct := h.lists.keys_nodup
    rwa [LinkedMap.pairs_keys] at hdistinct
  · rw [horder]
    exact h.lists.indexed
  · rw [horder]
    exact h.counted
  · exact h.bounded.trans (max_eq_left hcap).le

/-- **`LRUCache` is a cache by recency.** After any operations on a cache with
a capacity that is not negative, list and map belong together, the pairs are
those of the cache by recency in the same order, and so were the answers. -/
theorem refines_recency (capacity : ℤ) (hcap : 0 ≤ capacity) (ops : List (Op Bytes Bytes)) :
    (Runs.answers perform (new capacity) ops).1.WellLinked
      ∧ (Runs.answers perform (new capacity) ops).1.contents
        = (Runs.answers (Recency.perform capacity []) [] ops).1
      ∧ (Runs.answers perform (new capacity) ops).2
        = (Runs.answers (Recency.perform capacity []) [] ops).2 := by
  obtain ⟨⟨hc, ps, hps, hpairs⟩, hanswers⟩ := answers_perform capacity ops
  exact ⟨hps.wellLinked (hcap.trans_eq hc.symm), hps.contents_eq.trans hpairs, hanswers⟩

/-- The statement for a cache of two entries: the third key takes the place of
the first, which was not used in between. -/
theorem refines_recency_two :
    (Runs.answers perform (new 2) [.put [1] [10], .put [2] [20], .get [1] false,
        .put [3] [30], .get [1] true]).1.contents = [([3], [30]), ([2], [20])]
      ∧ (Runs.answers perform (new 2) [.put [1] [10], .put [2] [20], .get [1] false,
        .put [3] [30], .get [1] true]).2 = [none, none, some [10], none, some []] := by
  obtain ⟨-, hcontents, hanswers⟩ := refines_recency 2 (by decide)
    [.put [1] [10], .put [2] [20], .get [1] false, .put [3] [30], .get [1] true]
  exact ⟨hcontents.trans (by decide +kernel), hanswers.trans (by decide +kernel)⟩

end LRUCache

end Dcs
