import LinuxStudy.Bytes
import Mathlib.Data.Finset.Card
import Mathlib.Data.List.AList

/-!
# The least-recently-used cache

`LRUCache` is a hash map from keys to the nodes of a doubly linked list
between two sentinels. The list is kept by recency: `put` and `get` move the
node of their key behind `head`, and when an insertion takes the size past
the capacity the node before `tail` goes.

The nodes live on a heap, addresses being numbers and `0` the null pointer,
so `addToHead`, `removeNode` and their callers are the assignments of the
source in the order of the source. What a *reader* of the cache sees is
`value?`: the value of the node the map has for the key. Moving nodes about
changes links only, so it changes no reading (`LinksOnly.value?_eq`), and a
`put` that evicts nothing changes the reading of its own key alone
(`HoldsIn.value?_put`).
-/

namespace Dcs

/-- A node of the list. -/
structure DLinkedNode where
  /-- The key, which an eviction reads to find the entry of the map. -/
  key : Bytes
  /-- The value stored for it. -/
  value : Bytes
  /-- The node before this one. -/
  prev : ℕ
  /-- The node after this one. -/
  next : ℕ

/-- **The cache**: the map, and the heap its nodes are on. -/
structure LRUCache where
  /-- How many entries the cache may keep. -/
  capacity : ℤ
  /-- The node of each key. -/
  cache : AList (fun _ : Bytes => ℕ)
  /-- The heap. -/
  nodes : ℕ → DLinkedNode
  /-- The address the next allocation returns. -/
  fresh : ℕ
  /-- How many entries the cache counts. -/
  size : ℤ

namespace LRUCache

/-- The null pointer. -/
abbrev null : ℕ := 0

/-- The sentinel before the most recent node. -/
abbrev head : ℕ := 1

/-- The sentinel after the least recent node. -/
abbrev tail : ℕ := 2

/-- `p->prev = q`. -/
def setPrev (c : LRUCache) (p q : ℕ) : LRUCache :=
  { c with nodes := Function.update c.nodes p { c.nodes p with prev := q } }

/-- `p->next = q`. -/
def setNext (c : LRUCache) (p q : ℕ) : LRUCache :=
  { c with nodes := Function.update c.nodes p { c.nodes p with next := q } }

/-- `p->value = v`. -/
def setValue (c : LRUCache) (p : ℕ) (v : Bytes) : LRUCache :=
  { c with nodes := Function.update c.nodes p { c.nodes p with value := v } }

/-- `DLinkedNode()`: twenty blanks for a key, two hundred for a value. -/
def blankNode : DLinkedNode :=
  ⟨List.replicate 20 32, List.replicate 200 32, null, null⟩

/-- The constructor: two sentinels linked to each other. -/
def new (capacity : ℤ) : LRUCache :=
  let c : LRUCache := ⟨capacity, ∅, fun _ => blankNode, 3, 0⟩
  let c := c.setNext head tail
  c.setPrev tail head

/-- `addToHead`. -/
def addToHead (c : LRUCache) (node : ℕ) : LRUCache :=
  let c := c.setPrev node head
  let c := c.setNext node (c.nodes head).next
  let c := c.setPrev (c.nodes head).next node
  c.setNext head node

/-- `removeNode`. -/
def removeNode (c : LRUCache) (node : ℕ) : LRUCache :=
  let c := c.setNext (c.nodes node).prev (c.nodes node).next
  c.setPrev (c.nodes node).next (c.nodes node).prev

/-- `moveToHead`. -/
def moveToHead (c : LRUCache) (node : ℕ) : LRUCache :=
  (c.removeNode node).addToHead node

/-- `removeTail`: the node it returns is still on the heap. -/
def removeTail (c : LRUCache) : LRUCache × ℕ :=
  let node := (c.nodes tail).prev
  (c.removeNode node, node)

/-- `get`. The flag says whether the read counts as a use. -/
def get (c : LRUCache) (key : Bytes) (flag : Bool) : LRUCache × Bytes :=
  match c.cache.lookup key with
  | none => (c, [])
  | some node =>
    let c := if flag then c.moveToHead node else c
    (c, (c.nodes node).value)

/-- The part of `put` for a key the map does not have, up to the test of the
size. -/
def insertNode (c : LRUCache) (key value : Bytes) : LRUCache :=
  let node := c.fresh
  let c : LRUCache :=
    { c with
      nodes := Function.update c.nodes node ⟨key, value, null, null⟩
      fresh := c.fresh + 1
      cache := c.cache.insert key node }
  let c := c.addToHead node
  { c with size := c.size + 1 }

/-- The part of `put` that removes the least recent node. The node is deleted
after its key has been read, and no pointer to it is left. -/
def evict (c : LRUCache) : LRUCache :=
  let (c, removed) := c.removeTail
  { c with cache := c.cache.erase (c.nodes removed).key, size := c.size - 1 }

/-- `put`. -/
def put (c : LRUCache) (key value : Bytes) : LRUCache :=
  match c.cache.lookup key with
  | none =>
    let c := c.insertNode key value
    if c.size > c.capacity then c.evict else c
  | some node =>
    let c := c.setValue node value
    c.moveToHead node

/-! ## What moving nodes leaves alone

The helpers write links and nothing else. So what a cache stores, that is the
value of the node the map has for a key, is untouched by them, whatever the list
looks like: for the readings nothing has to be known about the links. -/

/-- What the cache stores for a key: the value of the node the map has for
it. -/
def value? (c : LRUCache) (key : Bytes) : Option Bytes :=
  (c.cache.lookup key).map (fun p => (c.nodes p).value)

/-- Two caches that differ in links only: the same map and counters, and on
every node the same key and value. -/
structure LinksOnly (c d : LRUCache) : Prop where
  capacity : d.capacity = c.capacity
  cache : d.cache = c.cache
  fresh : d.fresh = c.fresh
  size : d.size = c.size
  key : ∀ p, (d.nodes p).key = (c.nodes p).key
  value : ∀ p, (d.nodes p).value = (c.nodes p).value

theorem LinksOnly.refl (c : LRUCache) : LinksOnly c c :=
  ⟨rfl, rfl, rfl, rfl, fun _ => rfl, fun _ => rfl⟩

theorem LinksOnly.trans {c d e : LRUCache} (h₁ : LinksOnly c d) (h₂ : LinksOnly d e) :
    LinksOnly c e :=
  ⟨h₂.capacity.trans h₁.capacity, h₂.cache.trans h₁.cache, h₂.fresh.trans h₁.fresh,
    h₂.size.trans h₁.size, fun p => (h₂.key p).trans (h₁.key p),
    fun p => (h₂.value p).trans (h₁.value p)⟩

theorem linksOnly_update (c : LRUCache) (p : ℕ) (n : DLinkedNode)
    (hk : n.key = (c.nodes p).key) (hv : n.value = (c.nodes p).value) :
    LinksOnly c { c with nodes := Function.update c.nodes p n } := by
  refine ⟨rfl, rfl, rfl, rfl, fun q => ?_, fun q => ?_⟩
  all_goals
    by_cases h : q = p
    · subst h
      simp only [Function.update_self, hk, hv]
    · simp only [Function.update_of_ne h]

theorem linksOnly_setPrev (c : LRUCache) (p q : ℕ) : LinksOnly c (c.setPrev p q) :=
  linksOnly_update c p _ rfl rfl

theorem linksOnly_setNext (c : LRUCache) (p q : ℕ) : LinksOnly c (c.setNext p q) :=
  linksOnly_update c p _ rfl rfl

theorem linksOnly_addToHead (c : LRUCache) (node : ℕ) : LinksOnly c (c.addToHead node) :=
  (linksOnly_setPrev _ _ _).trans ((linksOnly_setNext _ _ _).trans
    ((linksOnly_setPrev _ _ _).trans (linksOnly_setNext _ _ _)))

theorem linksOnly_removeNode (c : LRUCache) (node : ℕ) : LinksOnly c (c.removeNode node) :=
  (linksOnly_setNext _ _ _).trans (linksOnly_setPrev _ _ _)

theorem linksOnly_moveToHead (c : LRUCache) (node : ℕ) : LinksOnly c (c.moveToHead node) :=
  (linksOnly_removeNode _ _).trans (linksOnly_addToHead _ _)

theorem LinksOnly.value?_eq {c d : LRUCache} (h : LinksOnly c d) (key : Bytes) :
    d.value? key = c.value? key := by
  unfold value?
  rw [h.cache]
  exact congrArg (fun f => Option.map f (c.cache.lookup key)) (funext h.value)

/-- **What `get` answers**: the stored value, and the empty string for a key
that is not there. -/
theorem get_snd (c : LRUCache) (key : Bytes) (flag : Bool) :
    (c.get key flag).2 = (c.value? key).getD [] := by
  unfold get value?
  cases c.cache.lookup key with
  | none => rfl
  | some node =>
    cases flag with
    | false => rfl
    | true => exact (linksOnly_moveToHead c node).value node

theorem value?_eq_none_iff (c : LRUCache) (key : Bytes) :
    c.value? key = none ↔ key ∉ c.cache := by
  unfold value?
  rw [Option.map_eq_none_iff, AList.lookup_eq_none]

theorem exists_value?_of_mem {c : LRUCache} {key : Bytes} (h : key ∈ c.cache) :
    ∃ v, c.value? key = some v :=
  Option.ne_none_iff_exists'.mp (fun hno => (value?_eq_none_iff c key).mp hno h)

theorem mem_of_value?_eq_some {c : LRUCache} {key v : Bytes} (h : c.value? key = some v) :
    key ∈ c.cache := by
  refine by_contra fun hno => ?_
  rw [(value?_eq_none_iff c key).mpr hno] at h
  exact Option.some_ne_none v h.symm

/-! ## Well-formed caches -/

/-- **A well-formed cache**: the map points at allocated nodes that carry the
key they are filed under, and the counter counts the entries. -/
structure Wf (c : LRUCache) : Prop where
  /-- The nodes of the map have been allocated. -/
  allocated : ∀ {key p}, c.cache.lookup key = some p → p < c.fresh
  /-- The node filed under a key carries it, so two keys never share one. -/
  filed : ∀ {key p}, c.cache.lookup key = some p → (c.nodes p).key = key
  /-- The counter is the number of entries. -/
  counted : c.size = c.cache.keys.length

theorem wf_new (capacity : ℤ) : (new capacity).Wf :=
  ⟨fun h => absurd h (Option.some_ne_none _).symm,
    fun h => absurd h (Option.some_ne_none _).symm, rfl⟩

/-- Links do not matter for being well formed. -/
theorem LinksOnly.wf {c d : LRUCache} (h : LinksOnly c d) (hc : c.Wf) : d.Wf := by
  refine ⟨fun hp => ?_, fun hp => ?_, ?_⟩
  · rw [h.cache] at hp
    rw [h.fresh]
    exact hc.allocated hp
  · rw [h.cache] at hp
    rw [h.key]
    exact hc.filed hp
  · rw [h.size, h.cache]
    exact hc.counted

/-- A new key filed under a new node that is not linked yet. -/
def fileNode (c : LRUCache) (key value : Bytes) : LRUCache :=
  { c with
    nodes := Function.update c.nodes c.fresh ⟨key, value, null, null⟩
    fresh := c.fresh + 1
    cache := c.cache.insert key c.fresh }

/-- An entry of the new map is the new node, or an old one at its old
address. -/
theorem Wf.lookup_fileNode {c : LRUCache} (hc : c.Wf) {key value k : Bytes} {p : ℕ}
    (hp : (c.fileNode key value).cache.lookup k = some p) :
    (k = key ∧ p = c.fresh) ∨ (c.cache.lookup k = some p ∧ p ≠ c.fresh) := by
  unfold fileNode at hp
  by_cases hk : k = key
  · rw [hk, AList.lookup_insert] at hp
    exact Or.inl ⟨hk, (Option.some.inj hp).symm⟩
  · rw [AList.lookup_insert_ne hk] at hp
    exact Or.inr ⟨hp, (hc.allocated hp).ne⟩

/-- The new key reads its value, any other what it read. -/
theorem Wf.value?_fileNode {c : LRUCache} (hc : c.Wf) (key value k : Bytes) :
    (c.fileNode key value).value? k = if k = key then some value else c.value? k := by
  unfold value? fileNode
  by_cases hk : k = key
  · rw [if_pos hk, hk, AList.lookup_insert]
    simp only [Option.map_some, Function.update_self]
  · rw [if_neg hk, AList.lookup_insert_ne hk]
    cases hp : c.cache.lookup k with
    | none => rfl
    | some p => simp only [Option.map_some, Function.update_of_ne (hc.allocated hp).ne]

/-- **A new key is filed under a new node**, and linked. -/
theorem Wf.insertNode {c : LRUCache} (hc : c.Wf) {key : Bytes} (value : Bytes)
    (hkey : key ∉ c.cache) :
    (c.insertNode key value).Wf
      ∧ (∀ k, (c.insertNode key value).value? k
          = if k = key then some value else c.value? k)
      ∧ (c.insertNode key value).size = c.size + 1
      ∧ (c.insertNode key value).capacity = c.capacity := by
  have hlinks : LinksOnly (c.fileNode key value) ((c.fileNode key value).addToHead c.fresh) :=
    linksOnly_addToHead _ c.fresh
  have hsize : (c.insertNode key value).size = c.size + 1 := by
    show ((c.fileNode key value).addToHead c.fresh).size + 1 = _
    rw [hlinks.size]
    rfl
  refine ⟨⟨fun hp => ?_, fun hp => ?_, ?_⟩, fun k => ?_, hsize, hlinks.capacity⟩
  · show _ < ((c.fileNode key value).addToHead c.fresh).fresh
    rw [hlinks.fresh]
    rcases hc.lookup_fileNode (hlinks.cache ▸ hp) with ⟨-, rfl⟩ | ⟨hold, -⟩
    · exact Nat.lt_succ_self _
    · exact Nat.lt_succ_of_lt (hc.allocated hold)
  · show (((c.fileNode key value).addToHead c.fresh).nodes _).key = _
    rw [hlinks.key]
    unfold fileNode
    -- an old node is not the new one, so its key is as it was
    rcases hc.lookup_fileNode (hlinks.cache ▸ hp) with ⟨rfl, rfl⟩ | ⟨hold, hne⟩
    · simp only [Function.update_self]
    · simp only [Function.update_of_ne hne]
      exact hc.filed hold
  · have hlen : (c.cache.insert key c.fresh).keys.length = c.cache.keys.length + 1 := by
      rw [AList.keys, AList.entries_insert_of_notMem hkey]
      rfl
    show _ = (((c.fileNode key value).addToHead c.fresh).cache.keys.length : ℤ)
    rw [hsize, hlinks.cache, hc.counted]
    exact (congrArg Nat.cast hlen).symm
  · show ((c.fileNode key value).addToHead c.fresh).value? k = _
    rw [hlinks.value?_eq, hc.value?_fileNode]

/-- A key already there gets its value changed and nothing else. -/
theorem Wf.setValue {c : LRUCache} (hc : c.Wf) {key : Bytes} {node : ℕ}
    (hnode : c.cache.lookup key = some node) (value : Bytes) :
    (c.setValue node value).Wf
      ∧ ∀ k, (c.setValue node value).value? k
          = if k = key then some value else c.value? k := by
  have hkeys : ∀ p, ((c.setValue node value).nodes p).key = (c.nodes p).key := by
    intro p
    unfold LRUCache.setValue
    by_cases h : p = node
    · subst h
      simp only [Function.update_self]
    · simp only [Function.update_of_ne h]
  refine ⟨⟨hc.allocated, fun hp => (hkeys _).trans (hc.filed hp), hc.counted⟩, fun k => ?_⟩
  unfold value? LRUCache.setValue
  by_cases hk : k = key
  · rw [if_pos hk, hk, hnode]
    simp only [Option.map_some, Function.update_self]
  · rw [if_neg hk]
    cases hp : c.cache.lookup k with
    | none => rfl
    | some p =>
      have hne : p ≠ node := by
        rintro rfl
        exact hk ((hc.filed hp).symm.trans (hc.filed hnode))
      simp only [Option.map_some, Function.update_of_ne hne]

/-! ## Caches with room

A key is evicted only by a `put` of a new key into a full cache. If all the keys
that are ever put are of a set that is not greater than the capacity, no cache is
ever too full, and a `put` changes the reading of its own key and of no other.
This is how the runs of several caches use the cache. What is evicted otherwise is
in `LRURefinement`. -/

/-- **A cache with room for a set of keys**: well formed, holding keys of the
set only, and large enough to hold them all. Whatever key of the set is put
into it, nothing is evicted. -/
structure HoldsIn (K : Finset Bytes) (c : LRUCache) : Prop where
  wf : c.Wf
  /-- Every key held is one of the set. -/
  held : ∀ key ∈ c.cache, key ∈ K
  /-- The set fits. -/
  room : (K.card : ℤ) ≤ c.capacity

theorem holdsIn_new {K : Finset Bytes} {capacity : ℤ} (h : (K.card : ℤ) ≤ capacity) :
    HoldsIn K (new capacity) :=
  ⟨wf_new capacity, fun _ hkey => absurd hkey List.not_mem_nil, h⟩

/-- With room for one more key the counter stays within the capacity. -/
theorem HoldsIn.size_lt {K : Finset Bytes} {c : LRUCache} (h : HoldsIn K c)
    {key : Bytes} (hK : key ∈ K) (hkey : key ∉ c.cache) : c.size + 1 ≤ c.capacity := by
  have hsub : insert key c.cache.keys.toFinset ⊆ K := by
    intro k hk
    rcases Finset.mem_insert.mp hk with rfl | hk'
    · exact hK
    · exact h.held k (AList.mem_keys.mpr (List.mem_toFinset.mp hk'))
  have hcard := Finset.card_le_card hsub
  rw [Finset.card_insert_of_notMem
    (fun hmem => hkey (AList.mem_keys.mpr (List.mem_toFinset.mp hmem))),
    List.toFinset_card_of_nodup c.cache.keys_nodup] at hcard
  have hroom := h.room
  have hcount := h.wf.counted
  omega

/-- **A `put` into a cache with room** changes the reading of its own key
alone, and leaves a cache with room. -/
theorem HoldsIn.put {K : Finset Bytes} {c : LRUCache} (h : HoldsIn K c)
    {key : Bytes} (hK : key ∈ K) (value : Bytes) :
    HoldsIn K (c.put key value)
      ∧ ∀ k, (c.put key value).value? k = if k = key then some value else c.value? k := by
  suffices hput : (c.put key value).Wf
      ∧ (∀ k, (c.put key value).value? k = if k = key then some value else c.value? k)
      ∧ (c.put key value).capacity = c.capacity by
    refine ⟨⟨hput.1, fun k hk => ?_, hput.2.2 ▸ h.room⟩, hput.2.1⟩
    by_cases hkey : k = key
    · exact hkey ▸ hK
    · refine h.held k (by_contra fun hno => ?_)
      have hnone := hput.2.1 k
      rw [if_neg hkey, (c.value?_eq_none_iff k).mpr hno, value?_eq_none_iff] at hnone
      exact hnone hk
  unfold LRUCache.put
  cases hnode : c.cache.lookup key with
  | none =>
    have hkey : key ∉ c.cache := AList.lookup_eq_none.mp hnode
    obtain ⟨hwf, hval, hsize, hcap⟩ := h.wf.insertNode value hkey
    have hfits : ¬ (c.insertNode key value).size > (c.insertNode key value).capacity := by
      rw [hsize, hcap]
      exact not_lt.mpr (h.size_lt hK hkey)
    dsimp only
    rw [if_neg hfits]
    exact ⟨hwf, hval, hcap⟩
  | some node =>
    obtain ⟨hwf, hval⟩ := h.wf.setValue hnode value
    have hlinks := linksOnly_moveToHead (c.setValue node value) node
    exact ⟨hlinks.wf hwf, fun k => (hlinks.value?_eq k).trans (hval k), hlinks.capacity⟩

theorem HoldsIn.value?_put {K : Finset Bytes} {c : LRUCache} (h : HoldsIn K c)
    {key : Bytes} (hK : key ∈ K) (value k : Bytes) :
    (c.put key value).value? k = if k = key then some value else c.value? k :=
  (h.put hK value).2 k

/-- Putting one key of the set after the other. -/
theorem HoldsIn.foldl_put {K : Finset Bytes} (f : Bytes → Bytes) {keys : List Bytes}
    (hkeys : ∀ key ∈ keys, key ∈ K) {c : LRUCache} (h : HoldsIn K c) :
    HoldsIn K (keys.foldl (fun c key => c.put key (f key)) c)
      ∧ ∀ k, (keys.foldl (fun c key => c.put key (f key)) c).value? k
          = if k ∈ keys then some (f k) else c.value? k := by
  induction keys generalizing c with
  | nil => exact ⟨h, fun _ => rfl⟩
  | cons key keys ih =>
    have hK : key ∈ K := hkeys key List.mem_cons_self
    obtain ⟨hput, hval⟩ := ih (fun k hk => hkeys k (List.mem_cons_of_mem _ hk))
      (h.put hK (f key)).1
    refine ⟨hput, fun k => (hval k).trans ?_⟩
    by_cases hk : k ∈ keys
    · rw [if_pos hk, if_pos (List.mem_cons_of_mem _ hk)]
    · rw [if_neg hk, h.value?_put hK]
      by_cases hkk : k = key
      · rw [if_pos hkk, if_pos (List.mem_cons.mpr (Or.inl hkk)), hkk]
      · rw [if_neg hkk, if_neg (fun hc => (List.mem_cons.mp hc).elim hkk hk)]

end LRUCache

end Dcs
