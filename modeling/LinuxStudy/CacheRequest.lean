import LinuxStudy.CacheServer
import LinuxStudy.LRURefinement

/-!
# What a request is answered, and what it changes

`kvrequest_handler` looks a key up in `LC` and answers with the value and a
flag. The flag is read off the value: it says that the key is there exactly
if the value is not empty, and `get` answers a missing key with the empty
string. So a key that is stored with the empty string is reported missing,
and the client that is told so gives the data up for lost; every other key
is reported as it is (`reply_iff`).

The handler holds the lock for reading, as others may at the same time. But
`get` is called without its flag, whose default is to count the read as a
use, and the node of the key is moved to the front of the list. That changes
nothing exactly if the key is missing or is at the front already, and two
requests have the same effect in either order exactly if they ask for the
same key or one of them for a missing one (`request_readOnly_iff`).
-/

namespace Dcs

namespace CacheServer

open Recency (Op)

/-! ## The caches that are reached -/

/-- A server that has handled `KEY_VALUE_RESPOND` messages. -/
def stored (addr : Bytes) (num : ℕ) (capacity : ℤ) (messages : List (Bytes × Bytes)) :
    CacheServer :=
  messages.foldl (fun c m => (c.kvrespondHandler false m.1 m.2).1) (new addr num capacity)

/-- What the messages leave in a cache by recency. -/
def recent (capacity : ℤ) (messages : List (Bytes × Bytes)) : List (Bytes × Bytes) :=
  messages.foldl (fun l m => Recency.put capacity l m.1 m.2) []

/-- Storing messages one after the other. -/
theorem holds_foldl {capacity : ℤ} {l : List (Bytes × Bytes)} (messages : List (Bytes × Bytes))
    (c : CacheServer) (h : LRUCache.Holds capacity c.lc l) :
    LRUCache.Holds capacity
      (messages.foldl (fun c m => (c.kvrespondHandler false m.1 m.2).1) c).lc
      (messages.foldl (fun l m => Recency.put capacity l m.1 m.2) l) := by
  induction messages generalizing c l with
  | nil => exact h
  | cons m messages ih =>
    refine ih (c.kvrespondHandler false m.1 m.2).1 ?_
    rw [kvrespondHandler_false]
    obtain ⟨hcap, ps, hps, hpairs⟩ := h
    obtain ⟨qs, hqs, hput, hcap'⟩ := hps.put m.1 m.2
    refine ⟨hcap'.trans hcap, qs, hqs, ?_⟩
    rw [hput, hcap, hpairs]

/-- **`LC` holds what a cache by recency holds** after the messages. -/
theorem holds_stored (addr : Bytes) (num : ℕ) (capacity : ℤ) (messages : List (Bytes × Bytes)) :
    LRUCache.Holds capacity (stored addr num capacity messages).lc (recent capacity messages) :=
  holds_foldl messages (new addr num capacity) ⟨rfl, [], LRUCache.lists_new capacity, rfl⟩

theorem value?_of_holds {capacity : ℤ} {c : LRUCache} {l : List (Bytes × Bytes)}
    (h : LRUCache.Holds capacity c l) (key : Bytes) : c.value? key = Recency.find l key := by
  obtain ⟨-, ps, hps, rfl⟩ := h
  exact (hps.lists.find_pairs key).symm

/-! ## The answer -/

/-- **The answer tells whether the key is there**, and its value if it is. -/
def TellsPresence (c : CacheServer) (key : Bytes) : Prop :=
  ((c.kvrequestHandler key).2.2 = true ↔ key ∈ c.lc.cache)
    ∧ ((c.kvrequestHandler key).2.2 = true → c.lc.value? key = some (c.kvrequestHandler key).2.1)

/-- The answer is right exactly if the key is not stored with the empty
string. -/
theorem tellsPresence_iff (c : CacheServer) (key : Bytes) :
    c.TellsPresence key ↔ c.lc.value? key ≠ some [] := by
  have hvalue : (c.kvrequestHandler key).2.1 = (c.lc.value? key).getD [] := c.lc.get_snd key true
  have hflag : (c.kvrequestHandler key).2.2 = true ↔ (c.lc.value? key).getD [] ≠ [] := by
    rw [← hvalue]
    exact decide_eq_true_iff
  unfold TellsPresence
  rw [hflag, hvalue]
  cases hv : c.lc.value? key with
  | none =>
    have hno : key ∉ c.lc.cache := (c.lc.value?_eq_none_iff key).mp hv
    simp [hno]
  | some v =>
    have hmem : key ∈ c.lc.cache := LRUCache.mem_of_value?_eq_some hv
    by_cases hempty : v = []
    · simp [hmem, hempty]
    · simp [hmem, hempty]

/-- **The answer to a request** is right, after any messages, exactly if they
do not leave the key with the empty string. -/
theorem reply_iff (addr : Bytes) (num : ℕ) (capacity : ℤ) (messages : List (Bytes × Bytes))
    (key : Bytes) :
    (stored addr num capacity messages).TellsPresence key
      ↔ Recency.find (recent capacity messages) key ≠ some [] := by
  rw [tellsPresence_iff, value?_of_holds (holds_stored addr num capacity messages)]

/-- **A key that is stored with the empty string is reported missing.** -/
theorem reply_of_empty_value :
    ¬ ∀ (addr : Bytes) (num : ℕ) (capacity : ℤ) (messages : List (Bytes × Bytes)) (key : Bytes),
      (stored addr num capacity messages).TellsPresence key := by
  intro h
  have hpresent : (str "k") ∈ (stored (str "127.0.0.1:8000") 1 10 [(str "k", [])]).lc.cache := by
    decide +kernel
  have hflag : ((stored (str "127.0.0.1:8000") 1 10 [(str "k", [])]).kvrequestHandler
      (str "k")).2.2 = false := by
    decide +kernel
  have htells := (h (str "127.0.0.1:8000") 1 10 [(str "k", [])] (str "k")).1.mpr hpresent
  exact Bool.false_ne_true (hflag.symm.trans htells)

/-! ## The effect

A request is handled under a lock that many may hold at once, and it moves the
node of its key to the front. So it changes nothing exactly if the key is not
there or is in front already. Two requests that are handled one after the other
leave an order of the nodes that depends on which came first, but for a key that
is missing or for the same key twice. The values are never changed. -/

/-- **Two caches that do not differ**: in the map, in the order of the list,
in the pairs and in the counter. -/
structure SameCache (c d : LRUCache) : Prop where
  cache : d.cache = c.cache
  order : d.order = c.order
  contents : d.contents = c.contents
  size : d.size = c.size

theorem SameCache.of_eq {c d : LRUCache} (h : d = c) : SameCache c d :=
  h ▸ ⟨rfl, rfl, rfl, rfl⟩

theorem holds_kvrequestHandler {capacity : ℤ} {c : CacheServer} {l : List (Bytes × Bytes)}
    (h : LRUCache.Holds capacity c.lc l) (key : Bytes) :
    LRUCache.Holds capacity (c.kvrequestHandler key).1.lc (Recency.touch l key) := by
  obtain ⟨hcap, ps, hps, rfl⟩ := h
  obtain ⟨qs, hqs, hpairs, -, hcap'⟩ := hps.get key true
  exact ⟨hcap'.trans hcap, qs, hqs, hpairs⟩

/-- The pairs of a cache by recency are the contents, its keys those of the
map. -/
theorem contents_of_holds {capacity : ℤ} {c : LRUCache} {l : List (Bytes × Bytes)}
    (h : LRUCache.Holds capacity c l) :
    c.contents = l ∧ (l.map Prod.fst).Nodup ∧ ∀ key, key ∈ l.map Prod.fst ↔ key ∈ c.cache := by
  obtain ⟨-, ps, hps, rfl⟩ := h
  exact ⟨hps.contents_eq, hps.lists.keys_nodup, fun _ => hps.lists.mem_keys_iff⟩

theorem kvrequestHandler_of_notMem {c : CacheServer} {key : Bytes} (h : key ∉ c.lc.cache) :
    (c.kvrequestHandler key).1 = c := by
  unfold kvrequestHandler LRUCache.get
  rw [AList.lookup_eq_none.mpr h]

/-- A request changes neither the map nor the counter. -/
theorem kvrequestHandler_cache (c : CacheServer) (key : Bytes) :
    (c.kvrequestHandler key).1.lc.cache = c.lc.cache
      ∧ (c.kvrequestHandler key).1.lc.size = c.lc.size := by
  show (c.lc.get key true).1.cache = _ ∧ (c.lc.get key true).1.size = _
  unfold LRUCache.get
  cases c.lc.cache.lookup key with
  | none => exact ⟨rfl, rfl⟩
  | some node =>
    exact ⟨(LRUCache.linksOnly_moveToHead c.lc node).cache,
      (LRUCache.linksOnly_moveToHead c.lc node).size⟩

/-- A request for the most recent key changes nothing in the list. -/
theorem kvrequestHandler_of_first {capacity : ℤ} {c : CacheServer} {l : List (Bytes × Bytes)}
    (h : LRUCache.Holds capacity c.lc l) {key : Bytes}
    (hfirst : (l.map Prod.fst).head? = some key) :
    (c.kvrequestHandler key).1.lc.view = c.lc.view := by
  obtain ⟨-, ps, hps, rfl⟩ := h
  rw [LinkedMap.pairs_keys] at hfirst
  cases ps with
  | nil => exact absurd hfirst (by simp)
  | cons node ps =>
    obtain rfl : c.lc.view.key node = key := Option.some.inj hfirst
    have hlook : c.lc.cache.lookup (c.lc.view.key node) = some node :=
      (hps.lists.indexed _ node).mpr ⟨List.mem_cons_self, rfl⟩
    have hget : (c.kvrequestHandler (c.lc.view.key node)).1.lc = c.lc.moveToHead node := by
      show (c.lc.get _ true).1 = _
      unfold LRUCache.get
      rw [hlook]
      rfl
    rw [hget, LRUCache.view_moveToHead _ (hps.lists.ne_ends List.mem_cons_self).1]
    exact hps.lists.moveAfter_first

/-- A request leaves `LC` as it is exactly if the key is missing or is the
most recent one. -/
theorem sameCache_kvrequestHandler_iff {capacity : ℤ} {c : CacheServer}
    {l : List (Bytes × Bytes)} (h : LRUCache.Holds capacity c.lc l) (key : Bytes) :
    SameCache c.lc (c.kvrequestHandler key).1.lc
      ↔ key ∉ c.lc.cache ∨ (c.lc.contents.map Prod.fst).head? = some key := by
  obtain ⟨hcontents, hnodup, hkeys⟩ := contents_of_holds h
  have hafter := (contents_of_holds (holds_kvrequestHandler h key)).1
  constructor
  · intro hsame
    have htouch : Recency.touch l key = l := by
      rw [← hafter, hsame.contents, hcontents]
    rw [hcontents, ← hkeys]
    exact (Recency.touch_eq_self_iff hnodup).mp htouch
  · rintro (hno | hfirst)
    · exact SameCache.of_eq (congrArg lc (kvrequestHandler_of_notMem hno))
    · rw [hcontents] at hfirst
      have hview := kvrequestHandler_of_first h hfirst
      obtain ⟨hcache, hsize⟩ := kvrequestHandler_cache c key
      have horder : (c.kvrequestHandler key).1.lc.order = c.lc.order := by
        unfold LRUCache.order
        rw [hview, hcache]
      refine ⟨hcache, horder, ?_, hsize⟩
      unfold LRUCache.contents
      rw [hview, horder]

/-- Two requests have the same effect in either order exactly if they are for
the same key or one of them is for a missing one. -/
theorem kvrequestHandler_comm_iff {capacity : ℤ} {c : CacheServer}
    {l : List (Bytes × Bytes)} (h : LRUCache.Holds capacity c.lc l) (key key' : Bytes) :
    SameCache ((c.kvrequestHandler key).1.kvrequestHandler key').1.lc
        ((c.kvrequestHandler key').1.kvrequestHandler key).1.lc
      ↔ key = key' ∨ key ∉ c.lc.cache ∨ key' ∉ c.lc.cache := by
  obtain ⟨-, -, hkeys⟩ := contents_of_holds h
  have h₁ := holds_kvrequestHandler (holds_kvrequestHandler h key) key'
  have h₂ := holds_kvrequestHandler (holds_kvrequestHandler h key') key
  constructor
  · intro hsame
    have htouch : Recency.touch (Recency.touch l key) key'
        = Recency.touch (Recency.touch l key') key := by
      rw [← (contents_of_holds h₁).1, ← (contents_of_holds h₂).1]
      exact hsame.contents.symm
    rw [← hkeys, ← hkeys]
    exact Recency.touch_comm_iff.mp htouch
  · rintro (rfl | hno | hno)
    · exact SameCache.of_eq rfl
    · have hno' : key ∉ (c.kvrequestHandler key').1.lc.cache := by
        rw [(kvrequestHandler_cache c key').1]
        exact hno
      refine SameCache.of_eq (congrArg lc ?_)
      rw [kvrequestHandler_of_notMem hno', kvrequestHandler_of_notMem hno]
    · have hno' : key' ∉ (c.kvrequestHandler key).1.lc.cache := by
        rw [(kvrequestHandler_cache c key).1]
        exact hno
      refine SameCache.of_eq (congrArg lc ?_)
      rw [kvrequestHandler_of_notMem hno', kvrequestHandler_of_notMem hno]

/-- **What requests do under the shared lock.** Whatever was done to `LC`
before, a request leaves it as it is exactly if its key is missing or is the
most recent one, and two requests commute exactly if they are for the same
key or one of them is for a missing one. -/
theorem request_readOnly_iff (c : CacheServer) (capacity : ℤ) (ops : List (Op Bytes Bytes))
    (hc : c.lc = (Runs.answers LRUCache.perform (LRUCache.new capacity) ops).1) (key key' : Bytes) :
    (SameCache c.lc (c.kvrequestHandler key).1.lc
        ↔ key ∉ c.lc.cache ∨ (c.lc.contents.map Prod.fst).head? = some key)
      ∧ (SameCache ((c.kvrequestHandler key).1.kvrequestHandler key').1.lc
          ((c.kvrequestHandler key').1.kvrequestHandler key).1.lc
        ↔ key = key' ∨ key ∉ c.lc.cache ∨ key' ∉ c.lc.cache) := by
  have h := (LRUCache.answers_perform capacity ops).1
  rw [← hc] at h
  exact ⟨sameCache_kvrequestHandler_iff h key, kvrequestHandler_comm_iff h key key'⟩

/-- A server whose `LC` has handled two writes. -/
def twoWrites : CacheServer :=
  { new (str "127.0.0.1:8000") 1 10 with
    lc := (Runs.answers LRUCache.perform (LRUCache.new 10) [.put [1] [10], .put [2] [20]]).1 }

/-- The statement on it: a request for the second key is read-only, and one
for a key that is missing commutes with any other. -/
theorem request_readOnly_twoWrites :
    SameCache twoWrites.lc (twoWrites.kvrequestHandler [2]).1.lc
      ∧ SameCache ((twoWrites.kvrequestHandler [1]).1.kvrequestHandler [3]).1.lc
          ((twoWrites.kvrequestHandler [3]).1.kvrequestHandler [1]).1.lc :=
  ⟨(request_readOnly_iff twoWrites 10 _ rfl [2] [2]).1.mpr (Or.inr (by decide +kernel)),
    (request_readOnly_iff twoWrites 10 _ rfl [1] [3]).2.mpr
      (Or.inr (Or.inr (by decide +kernel)))⟩

/-- **A request under the shared lock is not read-only**: with two keys
stored, one for the first moves it to the front, and requests for both leave
an order that depends on which came first. -/
theorem request_not_readOnly :
    (¬ ∀ (c : CacheServer) (capacity : ℤ) (ops : List (Op Bytes Bytes)),
        c.lc = (Runs.answers LRUCache.perform (LRUCache.new capacity) ops).1 →
        ∀ key, SameCache c.lc (c.kvrequestHandler key).1.lc)
      ∧ ¬ ∀ (c : CacheServer) (capacity : ℤ) (ops : List (Op Bytes Bytes)),
        c.lc = (Runs.answers LRUCache.perform (LRUCache.new capacity) ops).1 →
        ∀ key key', SameCache ((c.kvrequestHandler key).1.kvrequestHandler key').1.lc
          ((c.kvrequestHandler key').1.kvrequestHandler key).1.lc := by
  constructor
  · intro h
    have horder := (h twoWrites 10 _ rfl [1]).contents
    exact absurd horder (by decide +kernel)
  · intro h
    have horder := (h twoWrites 10 _ rfl [1] [2]).contents
    exact absurd horder (by decide +kernel)

end CacheServer

end Dcs
