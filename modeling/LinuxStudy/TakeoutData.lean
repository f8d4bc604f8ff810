import LinuxStudy.CacheMigration
import LinuxStudy.SharedSlot
import Mathlib.Data.Multiset.Bind

/-!
# The threads that send

`takeout_alldata` goes through the buckets `organize_data` made. For each but
the server's own it stores the address in `task_arg` and creates a thread,
under a lock; the thread copies `task_arg`, under the same lock, connects to
the address it copied and sends the keys of that address's bucket, one after
the other. The loop pauses between two buckets, but a pause is no promise: a
thread may copy the struct after the loop has stored the next address. `LC`
does not change meanwhile, since the change holds `shutdown_lock`.

The struct is a `SharedSlot` of addresses. As long as the loop stores an
address only when every thread created has copied one, the addresses copied
are the labels of the buckets, each once, and what is sent is what
`organize_data` laid out: every key of `LC` that another server owns, once,
to its owner (`count_sent_takeoutAlldata`). With two threads created before
either has copied, one bucket is sent twice and the other not at all
(`bucket_sent_twice`).
-/

namespace Dcs

/-- **The loop of `takeout_alldata` and its threads.** -/
structure Takeout where
  /-- The buckets the loop has not come to. -/
  remaining : List Bytes
  /-- `task_arg.addr`. -/
  addr : Bytes
  /-- The threads created that have not copied `task_arg`. -/
  created : ℕ
  /-- The threads that have: the address copied, and the keys left to send. -/
  threads : List (Bytes × List Bytes)
  /-- What was sent, latest first. -/
  sent : List (Bytes × Info)

namespace Takeout

/-- The steps of the loop and the threads. -/
inductive Step
  /-- The loop comes to a bucket. -/
  | loop (addr : Bytes)
  /-- A thread copies `task_arg`. -/
  | copy
  /-- A thread sends its next key. -/
  | send (addr key : Bytes) (keys : List Bytes)

/-- The loop about to start, whatever the struct has from before. -/
def start (ipportAndKey : Buckets Bytes Bytes) (addr : Bytes) : Takeout :=
  ⟨ipportAndKey.keys, addr, 0, [], []⟩

/-- One turn of the loop: the server's own bucket is passed over, for another
the address is stored and a thread created. -/
def loop (c : CacheServer) (s : Takeout) (addr : Bytes) : Takeout :=
  if c.curenAddr = addr then { s with remaining := s.remaining.erase addr }
  else
    { s with
      remaining := s.remaining.erase addr
      addr := addr
      created := s.created + 1 }

/-- The constructor of `taskconnect_class`: a thread has the address the
struct has now, and the keys of its bucket before it. -/
def copy (ipportAndKey : Buckets Bytes Bytes) (s : Takeout) : Option Takeout :=
  match s.created with
  | 0 => none
  | created + 1 =>
    some { s with
      created := created
      threads := (s.addr, (ipportAndKey.lookup s.addr).getD []) :: s.threads }

/-- One turn of `sendout_data`. -/
def send (c : CacheServer) (s : Takeout) (addr key : Bytes) (keys : List Bytes) :
    Takeout :=
  { s with
    threads := (addr, keys) :: s.threads.erase (addr, key :: keys)
    sent := (addr, CacheServer.sendoutData c.lc key) :: s.sent }

/-- **One step**, undefined where it cannot be made. The map is unordered, so
the loop may come to any of the remaining buckets. -/
def step (c : CacheServer) (ipportAndKey : Buckets Bytes Bytes) (s : Takeout) :
    Step → Option Takeout
  | .loop addr => if addr ∈ s.remaining then some (s.loop c addr) else none
  | .copy => s.copy ipportAndKey
  | .send addr key keys =>
    if (addr, key :: keys) ∈ s.threads then some (s.send c addr key keys) else none

/-- The loop is through and every thread has sent its keys. -/
def Done (s : Takeout) : Prop :=
  s.remaining = [] ∧ s.created = 0 ∧ ∀ thread ∈ s.threads, thread.2 = []

instance (s : Takeout) : Decidable s.Done := inferInstanceAs (Decidable (_ ∧ _ ∧ _))

/-- The condition on a step: the loop stores an address only when every
thread created has copied one. -/
def Undisturbed (c : CacheServer) (s : Takeout) : Step → Prop
  | .loop addr => c.curenAddr = addr ∨ s.created = 0
  | .copy => True
  | .send _ _ _ => True

instance (c : CacheServer) (s : Takeout) (e : Step) : Decidable (s.Undisturbed c e) :=
  match e with
  | .loop addr => inferInstanceAs (Decidable (c.curenAddr = addr ∨ s.created = 0))
  | .copy => isTrue trivial
  | .send _ _ _ => isTrue trivial

/-! ## What the threads have to send

The books have three columns: the addresses that were stored so far, those that
were copied, and the messages that were sent or are still to be sent. A thread
knows only the address it has copied, and takes the bucket of that address. As
long as the struct is left alone until it was copied, the addresses that are
copied are those that were stored, each once, whatever the order of the buckets
and of the threads. -/

section Sending

variable {c : CacheServer} {ipportAndKey : Buckets Bytes Bytes} {s t : Takeout}

/-- What a thread with an address and keys has to send. -/
def load (c : CacheServer) (thread : Bytes × List Bytes) : Multiset (Bytes × Info) :=
  (thread.2.map (fun key => (thread.1, CacheServer.sendoutData c.lc key)) : List _)

/-- What a thread that copies an address has to send. -/
def bucket (c : CacheServer) (ipportAndKey : Buckets Bytes Bytes) (addr : Bytes) :
    Multiset (Bytes × Info) :=
  load c (addr, (ipportAndKey.lookup addr).getD [])

/-- The labels of the buckets that a thread is made for. -/
def foreign (c : CacheServer) (labels : List Bytes) : Multiset Bytes :=
  (labels : Multiset Bytes).filter (fun addr => addr ≠ c.curenAddr)

/-- The addresses the threads copied. -/
def copied (s : Takeout) : Multiset Bytes := (s.threads.map Prod.fst : List Bytes)

/-- **The books of a takeout.** With `given` the addresses stored: these and
the labels still to come are all labels; the struct is in balance; and what
was sent and what the threads have left is what the addresses copied call
for. -/
structure Books (c : CacheServer) (ipportAndKey : Buckets Bytes Bytes)
    (given : Multiset Bytes) (s : Takeout) : Prop where
  labels : given + foreign c s.remaining = foreign c ipportAndKey.keys
  balance : SharedSlot.Balanced s.addr s.created given s.copied
  sent : (s.sent : Multiset (Bytes × Info)) + (s.threads : Multiset _).bind (load c)
    = s.copied.bind (bucket c ipportAndKey)

theorem books_start (c : CacheServer) (ipportAndKey : Buckets Bytes Bytes) (addr : Bytes) :
    (start ipportAndKey addr).Books c ipportAndKey 0 where
  labels := Multiset.zero_add _
  balance := SharedSlot.balanced_zero addr
  sent := rfl

/-- Coming to a label takes it from those to come. -/
theorem foreign_erase {addr : Bytes} (h : addr ∈ s.remaining) :
    foreign c s.remaining
      = (if c.curenAddr = addr then 0 else {addr}) + foreign c (s.remaining.erase addr) := by
  unfold foreign
  have hperm : (s.remaining : Multiset Bytes) = addr ::ₘ (s.remaining.erase addr : List Bytes) :=
    Multiset.coe_eq_coe.mpr (List.perm_cons_erase h)
  rw [hperm]
  by_cases hc : c.curenAddr = addr
  · rw [Multiset.filter_cons_of_neg (p := fun a => a ≠ c.curenAddr) _
      (not_not.mpr hc.symm), if_pos hc, Multiset.zero_add]
  · rw [Multiset.filter_cons_of_pos (p := fun a => a ≠ c.curenAddr) _ (Ne.symm hc),
      if_neg hc, Multiset.singleton_add]

/-- The loop comes to a label: it is stored unless it is the server's own. -/
theorem Books.loop {given : Multiset Bytes} (h : s.Books c ipportAndKey given) {addr : Bytes}
    (hmem : addr ∈ s.remaining) (he : c.curenAddr = addr ∨ s.created = 0) :
    ∃ given', (s.loop c addr).Books c ipportAndKey given' := by
  have hlabels := h.labels
  rw [foreign_erase hmem] at hlabels
  unfold Takeout.loop
  by_cases hc : c.curenAddr = addr
  · rw [if_pos hc] at hlabels ⊢
    rw [Multiset.zero_add] at hlabels
    exact ⟨given, hlabels, h.balance, h.sent⟩
  · rw [if_neg hc] at hlabels ⊢
    refine ⟨addr ::ₘ given, ?_, h.balance.put (Or.inl (he.resolve_left hc)), h.sent⟩
    rw [← hlabels, ← Multiset.singleton_add, ← Multiset.add_assoc,
      Multiset.add_comm {addr} given]

/-- A thread copies the struct, and has its bucket to send. -/
theorem Books.copy {given : Multiset Bytes} (h : s.Books c ipportAndKey given)
    (hcopy : s.copy ipportAndKey = some t) : t.Books c ipportAndKey given := by
  unfold Takeout.copy at hcopy
  cases hcreated : s.created with
  | zero =>
    rw [hcreated] at hcopy
    exact absurd hcopy (by simp)
  | succ created =>
    rw [hcreated] at hcopy
    obtain rfl := Option.some.inj hcopy
    refine ⟨h.labels, ?_, ?_⟩
    · have hbal := h.balance
      rw [hcreated] at hbal
      exact hbal.take
    · show (s.sent : Multiset (Bytes × Info))
        + Multiset.bind ((s.addr, (ipportAndKey.lookup s.addr).getD []) ::ₘ
            (s.threads : Multiset (Bytes × List Bytes))) (load c)
          = Multiset.bind (s.addr ::ₘ s.copied) (bucket c ipportAndKey)
      -- the bucket is added on both sides
      rw [Multiset.cons_bind, Multiset.cons_bind, ← h.sent, ← Multiset.add_assoc,
        ← Multiset.add_assoc, Multiset.add_comm (s.sent : Multiset (Bytes × Info))]
      rfl

/-- A thread sends a key: it is the thread it was, with one key less. -/
theorem Books.send {given : Multiset Bytes} (h : s.Books c ipportAndKey given)
    {addr key : Bytes} {keys : List Bytes} (hmem : (addr, key :: keys) ∈ s.threads) :
    (s.send c addr key keys).Books c ipportAndKey given := by
  have hperm : (s.threads : Multiset (Bytes × List Bytes))
      = (addr, key :: keys) ::ₘ (s.threads.erase (addr, key :: keys) : List _) :=
    Multiset.coe_eq_coe.mpr (List.perm_cons_erase hmem)
  have hcopied : (s.send c addr key keys).copied = s.copied := by
    have hmap := congrArg (Multiset.map Prod.fst) hperm
    rw [Multiset.map_cons] at hmap
    exact hmap.symm
  refine ⟨h.labels, ?_, ?_⟩
  · rw [hcopied]
    exact h.balance
  · rw [hcopied, ← h.sent, hperm, Multiset.cons_bind]
    show ((addr, CacheServer.sendoutData c.lc key) ::ₘ (s.sent : Multiset _))
      + Multiset.bind ((addr, keys) ::ₘ (s.threads.erase (addr, key :: keys) : List _)) _
        = (s.sent : Multiset _)
          + (((addr, CacheServer.sendoutData c.lc key) ::ₘ load c (addr, keys)) + _)
    -- the message moves from what is left to what was sent
    rw [Multiset.cons_bind, Multiset.cons_add, Multiset.cons_add, Multiset.add_cons]

/-- **One step keeps the books.** -/
theorem Books.step {given : Multiset Bytes} (h : s.Books c ipportAndKey given) {e : Step}
    (he : s.Undisturbed c e) (hstep : s.step c ipportAndKey e = some t) :
    ∃ given', t.Books c ipportAndKey given' := by
  cases e with
  | loop addr =>
    simp only [Takeout.step] at hstep
    split at hstep
    · next hmem =>
      obtain rfl := Option.some.inj hstep
      exact h.loop hmem he
    · exact absurd hstep (by simp)
  | copy => exact ⟨given, h.copy hstep⟩
  | send addr key keys =>
    simp only [Takeout.step] at hstep
    split at hstep
    · next hmem =>
      obtain rfl := Option.some.inj hstep
      exact ⟨given, h.send hmem⟩
    · exact absurd hstep (by simp)

/-- At the end everything the buckets call for was sent. -/
theorem Books.sent_eq {given : Multiset Bytes} (h : s.Books c ipportAndKey given)
    (hdone : s.Done) :
    (s.sent : Multiset (Bytes × Info))
      = (foreign c ipportAndKey.keys).bind (bucket c ipportAndKey) := by
  obtain ⟨hrem, hcreated, hthreads⟩ := hdone
  have hlabels := h.labels
  have hbal := h.balance
  rw [hrem] at hlabels
  rw [hcreated] at hbal
  have hleft : (s.threads : Multiset _).bind (load c) = 0 := by
    refine (Multiset.bind_congr (fun thread hmem => ?_)).trans (Multiset.bind_zero _)
    unfold load
    rw [hthreads thread (Multiset.mem_coe.mp hmem)]
    rfl
  have hsent := h.sent
  rw [hleft, Multiset.add_zero, hbal.eq_of_done] at hsent
  rw [hsent, ← hlabels]
  exact congrArg (fun m => Multiset.bind m _) (Multiset.add_zero given).symm

/-- What the buckets call for is what `organize_data` laid out. -/
theorem bind_bucket_eq (c : CacheServer) (ipportAndKey : Buckets Bytes Bytes) :
    (foreign c ipportAndKey.keys).bind (bucket c ipportAndKey)
      = ((c.outgoing ipportAndKey).map
          (fun e => (e.1, CacheServer.sendoutData c.lc e.2)) : List (Bytes × Info)) := by
  have hpairs : c.outgoing ipportAndKey = _ :=
    Buckets.filter_pairs ipportAndKey (fun addr => decide (addr ≠ c.curenAddr))
  rw [hpairs, List.map_flatMap]
  unfold foreign bucket load
  rw [Multiset.filter_coe, Multiset.coe_bind]
  simp only [List.map_map, Function.comp_def]

end Sending

/-! ## Every key once -/

/-- What is sent in the end, up to order. -/
theorem perm_outgoing_of_done {c : CacheServer} {ipportAndKey : Buckets Bytes Bytes}
    {addr : Bytes} {es : List Step} {t : Takeout}
    (hrun : Runs.exec (step c ipportAndKey) (start ipportAndKey addr) es = some t)
    (hguard : Runs.Guarded (step c ipportAndKey) (Undisturbed c) (start ipportAndKey addr) es)
    (hdone : t.Done) :
    t.sent.Perm ((c.outgoing ipportAndKey).map
      (fun e => (e.1, CacheServer.sendoutData c.lc e.2))) := by
  obtain ⟨given, hbooks⟩ := Runs.exec_invariant
    (fun s => ∃ given, s.Books c ipportAndKey given)
    (fun ⟨_, hs⟩ he hstep => hs.step he hstep)
    ⟨0, books_start c ipportAndKey addr⟩ hguard hrun
  have hsent := hbooks.sent_eq hdone
  rw [bind_bucket_eq] at hsent
  exact Multiset.coe_eq_coe.mp hsent

/-- What `organize_data` lays out has every key of `LC` that another server
owns, once. -/
theorem nodup_outgoing {c : CacheServer} {ipportAndKey : Buckets Bytes Bytes}
    (h : c.organizeData = some ipportAndKey) :
    ((c.outgoing ipportAndKey).map
      (fun e => (e.1, CacheServer.sendoutData c.lc e.2))).Nodup := by
  have hpairs := Buckets.nodup_pairs_group h c.lc.cache.keys_nodup
  refine (hpairs.filter _).map (fun e e' heq => ?_)
  have hinj : e.1 = e'.1 ∧ CacheServer.sendoutData c.lc e.2 = CacheServer.sendoutData c.lc e'.2 :=
    Prod.mk.inj heq
  unfold CacheServer.sendoutData at hinj
  exact Prod.ext hinj.1 (Info.keyValueRespond.inj hinj.2).1

/-- A message of those laid out is a key of `LC`, with its value, to its
owner. -/
theorem mem_outgoing_iff {c : CacheServer} {ipportAndKey : Buckets Bytes Bytes}
    (h : c.organizeData = some ipportAndKey) (dest key value : Bytes) :
    (dest, Info.keyValueRespond key value) ∈ (c.outgoing ipportAndKey).map
        (fun e => (e.1, CacheServer.sendoutData c.lc e.2))
      ↔ c.lc.value? key = some value ∧ c.keyAddr.getServerIndex key = some dest
        ∧ dest ≠ c.curenAddr := by
  have hread : key ∈ c.lc.cache →
      ((c.lc.get key false).2 = value ↔ c.lc.value? key = some value) := by
    intro hkey
    obtain ⟨v, hv⟩ := LRUCache.exists_value?_of_mem hkey
    rw [LRUCache.get_snd, hv, Option.getD_some]
    exact (Option.some_inj).symm
  rw [List.mem_map]
  constructor
  · rintro ⟨⟨d, k⟩, he, heq⟩
    obtain ⟨rfl, rfl, hval⟩ : d = dest ∧ k = key ∧ (c.lc.get k false).2 = value := by
      simpa only [CacheServer.sendoutData, Prod.mk.injEq, Info.keyValueRespond.injEq]
        using heq
    obtain ⟨hpair, hne⟩ := List.mem_filter.mp he
    obtain ⟨hkey, hown⟩ := (Buckets.mem_pairs_group h d k).mp hpair
    exact ⟨(hread (AList.mem_keys.mpr hkey)).mp hval, hown, of_decide_eq_true hne⟩
  · rintro ⟨hval, hown, hne⟩
    have hkey : key ∈ c.lc.cache := LRUCache.mem_of_value?_eq_some hval
    refine ⟨(dest, key), List.mem_filter.mpr ⟨(Buckets.mem_pairs_group h dest key).mpr
      ⟨AList.mem_keys.mp hkey, hown⟩, decide_eq_true hne⟩, ?_⟩
    unfold CacheServer.sendoutData
    rw [(hread hkey).mpr hval]

/-- **Migration sends every key exactly once**, as long as the struct is left
undisturbed. For every content of `LC` and every new list: `organize_data`
comes to an end, and in every run of the loop and its threads in which an
address is stored only when every thread created has copied one, when all is
done each key of `LC` that another server owns on the new ring was sent once,
with its value, to its owner, and nothing else was sent. -/
theorem count_sent_takeoutAlldata (c : CacheServer) (iplist : List Bytes)
    (hlist : iplist ≠ []) (hnum : 0 < c.keyAddr.virtualNodeNum) :
    ∃ ipportAndKey, (c.iplistchange iplist).organizeData = some ipportAndKey
      ∧ ∀ (addr : Bytes) (es : List Step) (t : Takeout),
        Runs.exec (step (c.iplistchange iplist) ipportAndKey) (start ipportAndKey addr) es
          = some t →
        t.Done →
        Runs.Guarded (step (c.iplistchange iplist) ipportAndKey)
          (Undisturbed (c.iplistchange iplist)) (start ipportAndKey addr) es →
        (∀ m ∈ t.sent, ∃ key value, m.2 = Info.keyValueRespond key value)
          ∧ ∀ dest key value, t.sent.count (dest, Info.keyValueRespond key value)
            = if c.lc.value? key = some value
                ∧ (c.iplistchange iplist).keyAddr.getServerIndex key = some dest
                ∧ dest ≠ c.curenAddr then 1 else 0 := by
  obtain ⟨ipportAndKey, hgroup⟩ : ∃ b, (c.iplistchange iplist).organizeData = some b := by
    refine Buckets.exists_group (fun key _ => ?_)
    exact ConsistentHash.exists_getServerIndex c.keyAddr hlist hnum key
  refine ⟨ipportAndKey, hgroup, fun addr es t hrun hdone hguard => ?_⟩
  have hperm := perm_outgoing_of_done hrun hguard hdone
  refine ⟨fun m hm => ?_, fun dest key value => ?_⟩
  · obtain ⟨e, -, rfl⟩ := List.mem_map.mp (hperm.mem_iff.mp hm)
    exact ⟨e.2, _, rfl⟩
  · rw [hperm.count_eq]
    have hmem := mem_outgoing_iff hgroup dest key value
    by_cases hin : c.lc.value? key = some value
        ∧ (c.iplistchange iplist).keyAddr.getServerIndex key = some dest
        ∧ dest ≠ c.curenAddr
    · rw [if_pos hin]
      exact List.count_eq_one_of_mem (nodup_outgoing hgroup) (hmem.mpr hin)
    · rw [if_neg hin]
      exact List.count_eq_zero_of_not_mem (fun hc => hin (hmem.mp hc))

/-! ## A bucket that is lost -/

/-- A server with a key that `B` owns when `B` and `C` join, and one that `C`
owns. -/
def twoKeys : CacheServer :=
  let c := CacheServer.new cacheA 1 100
  { c with lc := (c.lc.put (str "b") (str "1")).put (str "y") (str "2") }

/-- The list with `B` and `C`. -/
def threeCaches : List Bytes := [cacheA, cacheB, cacheC]

/-- What is sent in a run, whether it was undisturbed, and whether all was
done. -/
def sentAfter (c : CacheServer) (ipportAndKey : Buckets Bytes Bytes) (es : List Step) :
    Option (Bool × Bool × List (Bytes × Info)) :=
  (Runs.exec (step c ipportAndKey) (start ipportAndKey []) es).map (fun t =>
    (decide (Runs.Guarded (step c ipportAndKey) (Undisturbed c) (start ipportAndKey []) es),
      decide t.Done, t.sent))

/-- Each thread copies the struct before the next address is stored. -/
theorem count_sent_takeoutAlldata_twoKeys :
    ∃ (ipportAndKey : Buckets Bytes Bytes) (t : Takeout),
      (twoKeys.iplistchange threeCaches).organizeData = some ipportAndKey
      ∧ t.sent.count (cacheC, Info.keyValueRespond (str "y") (str "2")) = 1
      ∧ t.sent.count (cacheB, Info.keyValueRespond (str "y") (str "2")) = 0 := by
  obtain ⟨ipportAndKey, hb, hall⟩ := count_sent_takeoutAlldata twoKeys threeCaches
    (List.cons_ne_nil _ _) (by decide)
  have hrun : ((twoKeys.iplistchange threeCaches).organizeData.bind (fun ipportAndKey =>
      sentAfter (twoKeys.iplistchange threeCaches) ipportAndKey
        [.loop cacheB, .copy, .loop cacheC, .send cacheB (str "b") [], .copy,
          .send cacheC (str "y") []])).map (fun r => (r.1, r.2.1)) = some (true, true) := by
    decide +kernel
  rw [hb] at hrun
  obtain ⟨r, hr, hflags⟩ := Option.map_eq_some_iff.mp hrun
  obtain ⟨t, ht, rfl⟩ := Option.map_eq_some_iff.mp hr
  obtain ⟨hguard, hdone⟩ := Prod.mk.inj hflags
  have hcount := (hall [] _ t ht (of_decide_eq_true hdone) (of_decide_eq_true hguard)).2
  refine ⟨ipportAndKey, t, hb, ?_, ?_⟩
  · rw [hcount]
    decide +kernel
  · rw [hcount]
    decide +kernel

/-- **A bucket is sent twice and another not at all**: the loop creates both
threads before either has copied the struct. -/
theorem bucket_sent_twice :
    ¬ ∀ (c : CacheServer) (iplist : List Bytes), iplist ≠ [] →
      0 < c.keyAddr.virtualNodeNum →
      ∃ ipportAndKey, (c.iplistchange iplist).organizeData = some ipportAndKey
        ∧ ∀ (addr : Bytes) (es : List Step) (t : Takeout),
          Runs.exec (step (c.iplistchange iplist) ipportAndKey)
            (start ipportAndKey addr) es = some t →
          t.Done →
          (∀ m ∈ t.sent, ∃ key value, m.2 = Info.keyValueRespond key value)
            ∧ ∀ dest key value, t.sent.count (dest, Info.keyValueRespond key value)
              = if c.lc.value? key = some value
                  ∧ (c.iplistchange iplist).keyAddr.getServerIndex key = some dest
                  ∧ dest ≠ c.curenAddr then 1 else 0 := by
  intro h
  obtain ⟨ipportAndKey, hb, hall⟩ := h twoKeys threeCaches (List.cons_ne_nil _ _) (by decide)
  have hrun : (twoKeys.iplistchange threeCaches).organizeData.bind (fun ipportAndKey =>
      sentAfter (twoKeys.iplistchange threeCaches) ipportAndKey
        [.loop cacheB, .loop cacheC, .copy, .copy, .send cacheC (str "y") [],
          .send cacheC (str "y") []])
      = some (false, true, [(cacheC, Info.keyValueRespond (str "y") (str "2")),
        (cacheC, Info.keyValueRespond (str "y") (str "2"))]) := by
    decide +kernel
  rw [hb] at hrun
  obtain ⟨t, ht, heq⟩ := Option.map_eq_some_iff.mp hrun
  obtain ⟨-, hdone, hsent⟩ : _ ∧ _ ∧ _ := by
    simpa only [Prod.mk.injEq] using heq
  have hcount := (hall [] _ t ht (of_decide_eq_true hdone)).2 cacheB (str "b") (str "1")
  rw [hsent] at hcount
  exact absurd hcount (by decide +kernel)

end Takeout

end Dcs
