import LinuxStudy.LRURefinement

/-!
# The other cache by recency

The cache of the small system, `LruCache`, keeps a map and a doubly linked
list as `LRUCache` does, but it does both differently. The list has no
sentinels: `head` and `tail` are its ends, and the links of the first and the
last node are null. And room is made *before* a new node is put to the front,
by dropping the node at `tail`.

With the null node for a sentinel the list is a ring, from null through
`head` to `tail` and back to null. Read this way the case distinctions of
`remove` and `setHead` go away: writing `head` is writing the `next` of null,
and writing `tail` its `prev`. So both implementations are linked maps, and
they agree because both do what the cache by recency does.
-/

namespace MiniDcs

open Recency (Op)

/-- A node of the list. -/
structure CacheNode where
  key : Bytes
  val : Bytes
  pre : ℕ
  next : ℕ

/-- **The cache.** -/
structure LruCache where
  /-- How many entries the cache may keep. -/
  size : ℤ
  head : ℕ
  tail : ℕ
  /-- The node of each key. -/
  mp : AList (fun _ : Bytes => ℕ)
  /-- The heap. -/
  nodes : ℕ → CacheNode
  /-- The address the next allocation returns. -/
  fresh : ℕ

namespace LruCache

/-- The null pointer. -/
abbrev null : ℕ := 0

/-- The constructor. -/
def new (capacity : ℤ) : LruCache :=
  ⟨capacity, null, null, ∅, fun _ => ⟨[], [], null, null⟩, 1⟩

/-- `p->next = q`. -/
def setNext (c : LruCache) (p q : ℕ) : LruCache :=
  { c with nodes := Function.update c.nodes p { c.nodes p with next := q } }

/-- `p->pre = q`. -/
def setPre (c : LruCache) (p q : ℕ) : LruCache :=
  { c with nodes := Function.update c.nodes p { c.nodes p with pre := q } }

/-- `p->val = v`. -/
def setVal (c : LruCache) (p : ℕ) (v : Bytes) : LruCache :=
  { c with nodes := Function.update c.nodes p { c.nodes p with val := v } }

/-- `remove`. -/
def remove (c : LruCache) (node : ℕ) : LruCache :=
  let c :=
    if (c.nodes node).pre ≠ null then c.setNext (c.nodes node).pre (c.nodes node).next
    else { c with head := (c.nodes node).next }
  if (c.nodes node).next ≠ null then c.setPre (c.nodes node).next (c.nodes node).pre
  else { c with tail := (c.nodes node).pre }

/-- `setHead`. -/
def setHead (c : LruCache) (node : ℕ) : LruCache :=
  let c := c.setNext node c.head
  let c := c.setPre node null
  let c := if c.head ≠ null then c.setPre c.head node else c
  let c := { c with head := node }
  if c.tail = null then { c with tail := c.head } else c

/-- The part of `set` that drops the node at `tail`. It is undefined where
there is none, or the map does not have its key. -/
def makeRoom (c : LruCache) : Option LruCache :=
  if c.tail = null then none
  else
    match c.mp.lookup (c.nodes c.tail).key with
    | none => none
    | some _ =>
      let key := (c.nodes c.tail).key
      let c := c.remove c.tail
      some { c with mp := c.mp.erase key }

/-- `mp.size() >= size`. A negative `size` is converted to a number larger
than any `mp.size()`. -/
def full (c : LruCache) : Bool := 0 ≤ c.size ∧ c.size ≤ c.mp.keys.length

/-- The part of `set` for a key the map does not have. -/
def insert (c : LruCache) (key value : Bytes) : Option LruCache :=
  let node := c.fresh
  let c : LruCache :=
    { c with
      nodes := Function.update c.nodes node ⟨key, value, null, null⟩
      fresh := c.fresh + 1 }
  (if c.full then c.makeRoom else some c).map (fun c =>
    let c := c.setHead node
    { c with mp := c.mp.insert key node })

/-- `set`. -/
def set (c : LruCache) (key value : Bytes) : Option LruCache :=
  match c.mp.lookup key with
  | some node => some (((c.setVal node value).remove node).setHead node)
  | none => c.insert key value

/-- `get`. -/
def get (c : LruCache) (key : Bytes) : LruCache × Bytes :=
  match c.mp.lookup key with
  | some node =>
    let c := (c.remove node).setHead node
    (c, (c.nodes node).val)
  | none => (c, [])

/-! ## The ring through null

`head` and `tail` are pointers to nodes and not nodes, and null stands at both
ends. If null is taken for a node whose links are `head` and `tail`, the nodes are
a ring through null, and the assignments to `head` and `tail` are assignments to
its links. Then both caches are linked maps, and the difference between them is in
the order of the assignments. -/

/-- The cache as a linked map, with the null node between the ends. -/
def view (c : LruCache) : LinkedMap ℕ Bytes Bytes where
  links := ⟨Function.update (fun p => (c.nodes p).next) null c.head,
    Function.update (fun p => (c.nodes p).pre) null c.tail⟩
  key := fun p => (c.nodes p).key
  value := fun p => (c.nodes p).val
  index := c.mp

/-- The nodes from `head` on, the most recent first. -/
def order (c : LruCache) : List ℕ := c.view.links.walk c.mp.keys.length null

/-- The pairs the cache holds, the most recent first. -/
def contents (c : LruCache) : List (Bytes × Bytes) := c.view.pairs c.order

/-- One node is written. -/
theorem view_update (c : LruCache) {p : ℕ} (hp : p ≠ null) (n : CacheNode) :
    LruCache.view { c with nodes := Function.update c.nodes p n }
      = c.view.write p n.key n.val n.next n.pre := by
  have hnode : ∀ {β : Type} (f : CacheNode → β),
      (fun r => f (Function.update c.nodes p n r))
        = Function.update (fun r => f (c.nodes r)) p (f n) := by
    intro β f
    funext r
    by_cases hr : r = p
    · rw [hr, Function.update_self, Function.update_self]
    · rw [Function.update_of_ne hr, Function.update_of_ne hr]
  unfold view LinkedMap.write
  dsimp only
  rw [hnode CacheNode.next, hnode CacheNode.pre, hnode CacheNode.key, hnode CacheNode.val,
    Function.update_comm hp, Function.update_comm hp]

theorem view_next (c : LruCache) {p : ℕ} (hp : p ≠ null) :
    c.view.links.next p = (c.nodes p).next := by
  simp only [view, Function.update_of_ne hp]

theorem view_prev (c : LruCache) {p : ℕ} (hp : p ≠ null) :
    c.view.links.prev p = (c.nodes p).pre := by
  simp only [view, Function.update_of_ne hp]

theorem view_next_null (c : LruCache) : c.view.links.next null = c.head := by
  simp only [view, Function.update_self]

theorem view_prev_null (c : LruCache) : c.view.links.prev null = c.tail := by
  simp only [view, Function.update_self]

/-- `p->next = q`. -/
theorem view_setNext (c : LruCache) {p : ℕ} (hp : p ≠ null) (q : ℕ) :
    (c.setNext p q).view
      = { c.view with
          links := { c.view.links with next := Function.update c.view.links.next p q } } := by
  refine (view_update c hp _).trans ?_
  unfold LinkedMap.write
  dsimp only
  rw [← view_prev c hp]
  show LinkedMap.mk ⟨_, _⟩ (Function.update _ p (c.view.key p))
    (Function.update _ p (c.view.value p)) _ = _
  simp only [Function.update_eq_self]

/-- `p->pre = q`. -/
theorem view_setPre (c : LruCache) {p : ℕ} (hp : p ≠ null) (q : ℕ) :
    (c.setPre p q).view
      = { c.view with
          links := { c.view.links with prev := Function.update c.view.links.prev p q } } := by
  refine (view_update c hp _).trans ?_
  unfold LinkedMap.write
  dsimp only
  rw [← view_next c hp]
  show LinkedMap.mk ⟨_, _⟩ (Function.update _ p (c.view.key p))
    (Function.update _ p (c.view.value p)) _ = _
  simp only [Function.update_eq_self]

theorem view_setVal (c : LruCache) {p : ℕ} (hp : p ≠ null) (v : Bytes) :
    (c.setVal p v).view = c.view.setValue p v := by
  refine (view_update c hp _).trans ?_
  unfold LinkedMap.write
  dsimp only
  rw [← view_next c hp, ← view_prev c hp]
  show LinkedMap.mk ⟨_, _⟩ (Function.update _ p (c.view.key p)) _ _ = _
  simp only [Function.update_eq_self]
  rfl

theorem view_head (c : LruCache) (q : ℕ) :
    LruCache.view { c with head := q }
      = { c.view with
          links := { c.view.links with next := Function.update c.view.links.next null q } } := by
  unfold view
  dsimp only
  rw [Function.update_idem]

theorem view_tail (c : LruCache) (q : ℕ) :
    LruCache.view { c with tail := q }
      = { c.view with
          links := { c.view.links with prev := Function.update c.view.links.prev null q } } := by
  unfold view
  dsimp only
  rw [Function.update_idem]

theorem view_setNext_or_head (c : LruCache) (p q : ℕ) :
    LruCache.view (if p ≠ null then c.setNext p q else { c with head := q })
      = { c.view with
          links := { c.view.links with next := Function.update c.view.links.next p q } } := by
  by_cases hp : p = null
  · rw [if_neg (not_not_intro hp), view_head, hp]
  · rw [if_pos hp, view_setNext c hp]

theorem view_setPre_or_tail (c : LruCache) (p q : ℕ) :
    LruCache.view (if p ≠ null then c.setPre p q else { c with tail := q })
      = { c.view with
          links := { c.view.links with prev := Function.update c.view.links.prev p q } } := by
  by_cases hp : p = null
  · rw [if_neg (not_not_intro hp), view_tail, hp]
  · rw [if_pos hp, view_setPre c hp]

/-- **`remove` takes a node out of the ring.** -/
theorem view_remove (c : LruCache) {node : ℕ} (h : node ≠ null) :
    (c.remove node).view = { c.view with links := c.view.links.unlink node } := by
  -- the second assignment reads `next` after the first, which may have written it
  have hnext : Function.update c.view.links.next (c.view.links.prev node)
      (c.view.links.next node) node = c.view.links.next node := by
    by_cases hself : node = c.view.links.prev node
    · rw [← hself, Function.update_self]
    · rw [Function.update_of_ne hself]
  unfold remove
  dsimp only
  rw [← view_next c h, ← view_prev c h, view_setPre_or_tail, ← view_next _ h, ← view_prev _ h]
  simp only [view_setNext_or_head, hnext]
  rfl

/-- **`setHead` puts a node behind null.** Both ends are null or neither
is. -/
theorem view_setHead (c : LruCache) {node : ℕ} (h : node ≠ null)
    (hends : c.head = null ↔ c.tail = null) :
    (c.setHead node).view = { c.view with links := c.view.links.linkAfter null node } := by
  have hlinked : ((c.setNext node c.head).setPre node null).view
      = { c.view with
          links := ⟨Function.update c.view.links.next node c.head,
            Function.update c.view.links.prev node null⟩ } := by
    rw [view_setPre _ h, view_setNext _ h]
  unfold setHead Links.linkAfter
  dsimp only
  rw [view_next_null]
  by_cases hnull : c.head = null
  · have htail : c.tail = null := hends.mp hnull
    rw [if_neg (show ¬ ((c.setNext node c.head).setPre node null).head ≠ null from
      not_not_intro hnull),
      if_pos (show ((c.setNext node c.head).setPre node null).tail = null from htail)]
    -- the list was empty, so the new node is its last one as well
    refine (view_tail { (c.setNext node c.head).setPre node null with head := node } node).trans ?_
    rw [view_head, hlinked]
    dsimp only
    rw [hnull]
  · have htail : c.tail ≠ null := fun ht => hnull (hends.mpr ht)
    rw [if_pos (show ((c.setNext node c.head).setPre node null).head ≠ null from hnull),
      if_neg (show ¬ (((c.setNext node c.head).setPre node null).setPre
        ((c.setNext node c.head).setPre node null).head node).tail = null from htail)]
    refine (view_head (((c.setNext node c.head).setPre node null).setPre c.head node) node).trans ?_
    rw [view_setPre _ hnull, hlinked]

theorem remove_size (c : LruCache) (node : ℕ) : (c.remove node).size = c.size := by
  unfold remove
  dsimp only
  split <;> split <;> rfl

theorem remove_fresh (c : LruCache) (node : ℕ) : (c.remove node).fresh = c.fresh := by
  unfold remove
  dsimp only
  split <;> split <;> rfl

theorem setHead_size (c : LruCache) (node : ℕ) : (c.setHead node).size = c.size := by
  unfold setHead
  dsimp only
  split <;> split <;> rfl

theorem setHead_fresh (c : LruCache) (node : ℕ) : (c.setHead node).fresh = c.fresh := by
  unfold setHead
  dsimp only
  split <;> split <;> rfl

/-! ## One operation

Where this cache is full, it makes room before it links the new node, while the
other one links first and drops afterwards. With a capacity of at least one entry
the result is the same. With none, there is nothing at `tail` to be dropped, and a
null pointer would be followed. -/

/-- **The nodes of the ring**, the most recent first: the invariant the
operations keep. -/
structure Lists (c : LruCache) (ps : List ℕ) : Prop where
  lists : c.view.Lists null ps null
  allocated : ∀ p ∈ ps, p < c.fresh
  fresh : null < c.fresh
  bounded : (ps.length : ℤ) ≤ c.size

variable {c : LruCache} {ps : List ℕ}

theorem Lists.contents_eq (h : c.Lists ps) : c.contents = c.view.pairs ps := by
  have hlen : c.mp.keys.length = ps.length := h.lists.length_keys
  unfold contents order
  rw [hlen, h.lists.linked.walk_eq]

theorem lists_new {capacity : ℤ} (hcap : 0 ≤ capacity) : (new capacity).Lists [] := by
  refine ⟨⟨⟨rfl, rfl⟩, List.nodup_nil, List.not_mem_nil, List.not_mem_nil, fun key p => ?_⟩,
    fun p hp => absurd hp List.not_mem_nil, Nat.lt_succ_self _, hcap⟩
  exact iff_of_false (fun h => Option.some_ne_none p h.symm) (fun h => List.not_mem_nil h.1)

/-- Both ends of a ring are null, or neither is. -/
theorem ends_null_iff (h : c.view.links.Linked null ps null) (hnull : null ∉ ps) :
    c.head = null ↔ c.tail = null := by
  rw [← view_next_null, ← view_prev_null]
  cases ps with
  | nil => exact iff_of_true h.1 h.2
  | cons p ps =>
    refine iff_of_false (fun hp => hnull ?_) (fun hp => hnull ?_)
    · rw [← hp, h.1.1]
      exact List.mem_cons_self
    · have hmem := h.2.prev_mem
      rwa [hp] at hmem

/-- A node of the ring is moved to the front. -/
theorem Lists.touch (h : c.Lists ps) {node : ℕ} (hnode : node ∈ ps) :
    ((c.remove node).setHead node).Lists (node :: ps.erase node)
      ∧ ((c.remove node).setHead node).view = c.view.moveAfter null node := by
  have hne : node ≠ null := (h.lists.ne_ends hnode).1
  have hperm : List.Perm ps (node :: ps.erase node) := List.perm_cons_erase hnode
  have hends : (c.remove node).head = null ↔ (c.remove node).tail = null := by
    have hlinked : (c.remove node).view.links.Linked null (ps.erase node) null := by
      rw [view_remove c hne]
      exact h.lists.linked_unlink hnode
    exact ends_null_iff hlinked (fun hmem => h.lists.front (List.mem_of_mem_erase hmem))
  have hview : ((c.remove node).setHead node).view = c.view.moveAfter null node := by
    rw [view_setHead _ hne hends, view_remove c hne]
    rfl
  refine ⟨⟨?_, fun p hp => ?_, ?_, ?_⟩, hview⟩
  · rw [hview]
    exact h.lists.moveAfter hnode
  · rw [setHead_fresh, remove_fresh]
    exact h.allocated p (hperm.mem_iff.mpr hp)
  · rw [setHead_fresh, remove_fresh]
    exact h.fresh
  · rw [setHead_size, remove_size, ← hperm.length_eq]
    exact h.bounded

/-- **`get` reads and uses as the cache by recency does.** -/
theorem Lists.get (h : c.Lists ps) (key : Bytes) :
    ∃ qs, (c.get key).1.Lists qs
      ∧ (c.get key).1.view.pairs qs = Recency.touch (c.view.pairs ps) key
      ∧ (c.get key).2 = (Recency.find (c.view.pairs ps) key).getD []
      ∧ (c.get key).1.size = c.size := by
  cases hlook : c.mp.lookup key with
  | none =>
    have hno : key ∉ (c.view.pairs ps).map Prod.fst := fun hmem =>
      AList.lookup_eq_none.mp hlook (h.lists.mem_keys_iff.mp hmem)
    have hget : c.get key = (c, []) := by
      unfold LruCache.get
      rw [hlook]
    rw [hget, Recency.touch_of_notMem hno, Recency.find_eq_none_iff.mpr hno]
    exact ⟨ps, h, rfl, rfl, rfl⟩
  | some node =>
    obtain ⟨hnode, rfl⟩ := (h.lists.indexed key node).mp hlook
    have hget : c.get (c.view.key node)
        = ((c.remove node).setHead node, ((c.remove node).setHead node).view.value node) := by
      unfold LruCache.get
      rw [hlook]
      rfl
    have hfind : Recency.find (c.view.pairs ps) (c.view.key node) = some (c.view.value node) := by
      rw [h.lists.find_pairs]
      show Option.map _ (c.mp.lookup _) = _
      rw [hlook]
      rfl
    obtain ⟨hlists, hview⟩ := h.touch hnode
    rw [hget, hfind]
    refine ⟨node :: ps.erase node, hlists, ?_, ?_, ?_⟩
    · rw [hview]
      exact h.lists.pairs_moveAfter hnode
    · rw [hview]
      rfl
    · rw [setHead_size, remove_size]

/-- **The node at `tail` is dropped.** -/
theorem makeRoom_spec {x : ℕ} (h : c.view.Lists null (ps ++ [x]) null) :
    ∃ d, c.makeRoom = some d ∧ d.view = c.view.removeBefore null ∧ d.size = c.size
      ∧ d.fresh = c.fresh := by
  have hlast : c.tail = x := (view_prev_null c).symm.trans h.linked.prev_end
  have hx : x ∈ ps ++ [x] := List.mem_append_right ps List.mem_cons_self
  have hne : c.tail ≠ null := hlast ▸ (h.ne_ends hx).1
  have hlook : c.mp.lookup (c.nodes c.tail).key = some c.tail := by
    rw [hlast]
    exact (h.indexed _ x).mpr ⟨hx, rfl⟩
  refine ⟨{ c.remove c.tail with mp := (c.remove c.tail).mp.erase (c.nodes c.tail).key },
    ?_, ?_, remove_size c _, remove_fresh c _⟩
  · unfold makeRoom
    rw [if_neg hne, hlook]
  · have hview := view_remove c hne
    have hmp : (c.remove c.tail).mp = c.mp := congrArg LinkedMap.index hview
    show LinkedMap.mk (c.remove c.tail).view.links (c.remove c.tail).view.key
      (c.remove c.tail).view.value _ = _
    rw [hview, hmp]
    unfold LinkedMap.removeBefore
    rw [view_prev_null]
    rfl

/-- A new node that is written, and not linked yet. -/
def allocate (c : LruCache) (key value : Bytes) : LruCache :=
  { c with
    nodes := Function.update c.nodes c.fresh ⟨key, value, null, null⟩
    fresh := c.fresh + 1 }

/-- **A node is written, and not linked yet**: it is none of the nodes of the
list, and its key is not in the map. -/
structure Unlinked (c : LruCache) (ps : List ℕ) (node : ℕ) (key value : Bytes) : Prop where
  lists : c.view.Lists null ps null
  allocated : ∀ p ∈ node :: ps, p < c.fresh
  notMem : node ∉ ps
  ne_null : node ≠ null
  absent : key ∉ c.mp
  key : c.view.key node = key
  value : c.view.value node = value

/-- The new node of a key that is not there. -/
theorem Lists.allocate (h : c.Lists ps) {key : Bytes} (hkey : key ∉ c.mp) (value : Bytes) :
    (c.allocate key value).Unlinked ps c.fresh key value
      ∧ (c.allocate key value).view.pairs ps = c.view.pairs ps := by
  have hfresh : c.fresh ≠ null := h.fresh.ne'
  have hnot : c.fresh ∉ ps := fun hmem => lt_irrefl _ (h.allocated _ hmem)
  have hview : (c.allocate key value).view = c.view.write c.fresh key value null null :=
    view_update c hfresh _
  obtain ⟨hwrite, hpairs⟩ := h.lists.write hnot hfresh hfresh key value null null
  rw [← hview] at hwrite hpairs
  refine ⟨⟨hwrite, fun p hp => ?_, hnot, hfresh, hkey, ?_, ?_⟩, hpairs⟩
  · rcases List.mem_cons.mp hp with rfl | hp
    · exact Nat.lt_succ_self _
    · exact Nat.lt_succ_of_lt (h.allocated p hp)
  · rw [hview]
    exact Function.update_self _ _ _
  · rw [hview]
    exact Function.update_self _ _ _

/-- **A node that is written is put to the front and into the map**, if there
is room. -/
theorem Unlinked.link {node : ℕ} {key value : Bytes} (h : c.Unlinked ps node key value)
    (hroom : (ps.length : ℤ) + 1 ≤ c.size) :
    LruCache.Lists { c.setHead node with mp := (c.setHead node).mp.insert key node } (node :: ps)
      ∧ (LruCache.view
          { c.setHead node with mp := (c.setHead node).mp.insert key node }).pairs (node :: ps)
        = (key, value) :: c.view.pairs ps := by
  have hlinks := view_setHead c h.ne_null (ends_null_iff h.lists.linked h.lists.front)
  have hmp : (c.setHead node).mp = c.mp := congrArg LinkedMap.index hlinks
  have hview : LruCache.view { c.setHead node with mp := (c.setHead node).mp.insert key node }
      = c.view.insertAfter null node key value := by
    show LinkedMap.mk (c.setHead node).view.links (c.setHead node).view.key
      (c.setHead node).view.value _ = _
    rw [hlinks, hmp]
    unfold LinkedMap.insertAfter
    rw [← h.key, ← h.value, Function.update_eq_self, Function.update_eq_self]
    rfl
  rw [hview]
  refine ⟨⟨hview ▸ h.lists.insertAfter h.notMem h.ne_null h.ne_null h.absent value,
    fun p hp => ?_, ?_, ?_⟩, LinkedMap.pairs_insertAfter c.view null h.notMem key value⟩
  · show p < (c.setHead node).fresh
    rw [setHead_fresh]
    exact h.allocated p hp
  · show null < (c.setHead node).fresh
    rw [setHead_fresh]
    exact lt_of_le_of_lt (Nat.zero_le node) (h.allocated node List.mem_cons_self)
  · show _ ≤ (c.setHead node).size
    rw [setHead_size, List.length_cons]
    push_cast
    exact hroom

/-- **Room is made** for a node that is written. -/
theorem Unlinked.makeRoom {x node : ℕ} {key value : Bytes}
    (h : c.Unlinked (ps ++ [x]) node key value) :
    ∃ d, c.makeRoom = some d ∧ d.Unlinked ps node key value
      ∧ d.view.pairs ps = (c.view.pairs (ps ++ [x])).dropLast ∧ d.size = c.size := by
  obtain ⟨d, hd, hview, hsize, hfresh⟩ := makeRoom_spec h.lists
  refine ⟨d, hd, ⟨?_, fun p hp => ?_, ?_, h.ne_null, ?_, ?_, ?_⟩, ?_, hsize⟩
  · rw [hview]
    exact h.lists.removeBefore
  · rw [hfresh]
    refine h.allocated p ?_
    rcases List.mem_cons.mp hp with rfl | hp
    · exact List.mem_cons_self
    · exact List.mem_cons_of_mem _ (List.mem_append_left [x] hp)
  · exact fun hmem => h.notMem (List.mem_append_left [x] hmem)
  · have hmp : d.mp = c.mp.erase _ := congrArg LinkedMap.index hview
    rw [hmp, AList.mem_erase]
    exact fun hmem => h.absent hmem.2
  · rw [hview]
    exact h.key
  · rw [hview]
    exact h.value
  · rw [hview]
    exact LinkedMap.pairs_removeBefore c.view ps x null

theorem Lists.full_allocate (h : c.Lists ps) (hsize : 1 ≤ c.size) (key value : Bytes) :
    (c.allocate key value).full = decide (c.size ≤ ps.length) := by
  have hlen : (c.allocate key value).mp.keys.length = ps.length := h.lists.length_keys
  unfold full
  rw [hlen]
  exact decide_eq_decide.mpr (and_iff_right (le_trans zero_le_one hsize))

/-- **A new key goes to the front**, and if the cache is full the least recent
one goes first. -/
theorem Lists.insert (h : c.Lists ps) (hsize : 1 ≤ c.size) {key : Bytes} (hkey : key ∉ c.mp)
    (value : Bytes) :
    ∃ d qs, c.insert key value = some d ∧ d.Lists qs
      ∧ d.view.pairs qs = Recency.put c.size (c.view.pairs ps) key value ∧ d.size = c.size := by
  have hbounded := h.bounded
  obtain ⟨hnew, hpairs⟩ := h.allocate hkey value
  have hinsert : c.insert key value
      = (if (c.allocate key value).full then (c.allocate key value).makeRoom
          else some (c.allocate key value)).map (fun d =>
        { d.setHead c.fresh with mp := (d.setHead c.fresh).mp.insert key c.fresh }) := rfl
  rw [hinsert, h.full_allocate hsize, h.lists.put_pairs_of_absent hkey]
  by_cases hroom : c.size ≤ ps.length
  · -- a full cache holds a node, as its size is not `0`
    obtain ⟨qs, x, rfl⟩ : ∃ qs x, ps = qs ++ [x] := by
      refine (List.eq_nil_or_concat' ps).resolve_left ?_
      rintro rfl
      exact absurd (hsize.trans hroom) (by simp)
    obtain ⟨d, hd, hleft, hdrop, hdsize⟩ := hnew.makeRoom
    have hroom' : (qs.length : ℤ) + 1 ≤ d.size := by
      rw [hdsize]
      rw [List.length_append, List.length_singleton] at hbounded
      push_cast at hbounded
      exact hbounded
    have hpairs_ne : c.view.pairs (qs ++ [x]) ≠ [] := by
      unfold LinkedMap.pairs
      rw [List.map_append]
      exact List.append_ne_nil_of_right_ne_nil _ (List.cons_ne_nil _ _)
    obtain ⟨hlists', hpairs'⟩ := hleft.link hroom'
    refine ⟨_, c.fresh :: qs, ?_, hlists', ?_, (setHead_size d _).trans hdsize⟩
    · rw [decide_eq_true hroom, if_pos rfl, hd]
      rfl
    · rw [hpairs', if_pos hroom, hdrop, hpairs, List.dropLast_cons_of_ne_nil hpairs_ne]
  · obtain ⟨hlists', hpairs'⟩ := hnew.link (Int.add_one_le_of_lt (not_le.mp hroom))
    refine ⟨_, c.fresh :: ps, ?_, hlists', ?_, setHead_size _ _⟩
    · rw [decide_eq_false hroom]
      rfl
    · rw [hpairs', if_neg hroom, hpairs]

/-- **`set` writes as the cache by recency does**, and never follows a null
pointer. -/
theorem Lists.set (h : c.Lists ps) (hsize : 1 ≤ c.size) (key value : Bytes) :
    ∃ d qs, c.set key value = some d ∧ d.Lists qs
      ∧ d.view.pairs qs = Recency.put c.size (c.view.pairs ps) key value ∧ d.size = c.size := by
  cases hlook : c.mp.lookup key with
  | none =>
    obtain ⟨d, qs, hd, hrest⟩ := h.insert hsize (AList.lookup_eq_none.mp hlook) value
    refine ⟨d, qs, ?_, hrest⟩
    unfold LruCache.set
    rw [hlook]
    exact hd
  | some node =>
    obtain ⟨hnode, rfl⟩ := (h.lists.indexed key node).mp hlook
    have hne : node ≠ null := (h.lists.ne_ends hnode).1
    have hset : (c.setVal node value).Lists ps := by
      refine ⟨?_, h.allocated, h.fresh, h.bounded⟩
      rw [view_setVal c hne]
      exact h.lists.setValue node value
    obtain ⟨hlists, hview⟩ := hset.touch hnode
    refine ⟨_, node :: ps.erase node, ?_, hlists, ?_, ?_⟩
    · unfold LruCache.set
      rw [hlook]
    · rw [hview, view_setVal c hne, h.lists.put_pairs_of_mem hnode h.bounded]
    · rw [setHead_size, remove_size]
      rfl

/-! ## The two caches -/

/-- A write or a read. -/
inductive Access
  | write (key value : Bytes)
  | read (key : Bytes)

/-- A write is a `put`, a read a `get` that counts as a use. -/
def Access.op : Access → Op Bytes Bytes
  | .write key value => .put key value
  | .read key => .get key true

/-- One access, with what a read answers. The state is missing once a null
pointer was followed. -/
def access (c : Option LruCache) : Access → Option LruCache × Option Bytes
  | .write key value => (c.bind (fun c => c.set key value), none)
  | .read key => (c.map (fun c => (c.get key).1), c.map (fun c => (c.get key).2))

/-- A cache of a capacity that holds pairs in an order. -/
def Holds (capacity : ℤ) (c : Option LruCache) (l : List (Bytes × Bytes)) : Prop :=
  ∃ d ps, c = some d ∧ d.size = capacity ∧ d.Lists ps ∧ d.view.pairs ps = l

/-- **One access** does what the cache by recency does, and answers as it
does. -/
theorem Holds.access {capacity : ℤ} (hcap : 1 ≤ capacity) {c : Option LruCache}
    {l : List (Bytes × Bytes)} (h : Holds capacity c l) (a : Access) :
    Holds capacity (LruCache.access c a).1 (Recency.perform capacity [] l a.op).1
      ∧ (LruCache.access c a).2 = (Recency.perform capacity [] l a.op).2 := by
  obtain ⟨d, ps, rfl, rfl, hps, rfl⟩ := h
  cases a with
  | write key value =>
    obtain ⟨e, qs, he, hqs, hpairs, hsize⟩ := hps.set hcap key value
    exact ⟨⟨e, qs, he, hsize, hqs, hpairs⟩, rfl⟩
  | read key =>
    obtain ⟨qs, hqs, hpairs, hanswer, hsize⟩ := hps.get key
    exact ⟨⟨_, qs, rfl, hsize, hqs, hpairs⟩, congrArg some hanswer⟩

/-- **A run of accesses** leaves the pairs the cache by recency has, and gives
the same answers. -/
theorem answers_access {capacity : ℤ} (hcap : 1 ≤ capacity) (accesses : List Access) :
    Holds capacity (Runs.answers access (some (new capacity)) accesses).1
        (Runs.answers (Recency.perform capacity []) [] (accesses.map Access.op)).1
      ∧ (Runs.answers access (some (new capacity)) accesses).2
        = (Runs.answers (Recency.perform capacity []) [] (accesses.map Access.op)).2 := by
  have hnew : Holds capacity (some (new capacity)) [] :=
    ⟨_, [], rfl, rfl, lists_new (le_trans zero_le_one hcap), rfl⟩
  rw [Runs.answers_map]
  exact (Runs.guarded_iff_lockstep (fun h => iff_of_true trivial (h.access hcap _)) hnew).mp
    (Runs.guarded_true _ accesses) accesses (List.prefix_refl accesses)

/-- **The two caches agree.** After any writes and reads, with a capacity of
at least one entry, they hold the same pairs in the same order, and they have
answered every read alike. -/
theorem agrees_with_LRUCache (capacity : ℤ) (hcap : 1 ≤ capacity) (accesses : List Access) :
    (∃ d, (Runs.answers access (some (new capacity)) accesses).1 = some d
      ∧ d.contents = (Runs.answers Dcs.LRUCache.perform (Dcs.LRUCache.new capacity)
        (accesses.map Access.op)).1.contents)
      ∧ (Runs.answers access (some (new capacity)) accesses).2
        = (Runs.answers Dcs.LRUCache.perform (Dcs.LRUCache.new capacity)
          (accesses.map Access.op)).2 := by
  obtain ⟨⟨d, ps, hd, -, hps, hpairs⟩, hanswers⟩ := answers_access hcap accesses
  obtain ⟨⟨-, qs, hqs, hpairs'⟩, hanswers'⟩ :=
    Dcs.LRUCache.answers_perform capacity (accesses.map Access.op)
  refine ⟨⟨d, hd, ?_⟩, hanswers.trans hanswers'.symm⟩
  rw [hps.contents_eq, hqs.contents_eq, hpairs, hpairs']

/-- The statement for one entry: the second key takes the place of the
first. -/
theorem agrees_with_LRUCache_one :
    (Runs.answers access (some (new 1)) [.write [1] [10], .write [2] [20], .read [1]]).2
      = [none, none, some []] := by
  obtain ⟨-, hanswers⟩ := agrees_with_LRUCache 1 le_rfl
    [.write [1] [10], .write [2] [20], .read [1]]
  exact hanswers.trans (by decide +kernel)

end LruCache

end MiniDcs
