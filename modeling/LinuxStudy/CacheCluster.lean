import LinuxStudy.CacheServer
import LinuxStudy.Runs

/-!
# A tier of cache servers

The caches of the system, the list they are on, and what happens between
them. Two things do: clients write, each key at its current owner, and the
list changes, which sets every listed cache to work and puts messages in
flight.

While a list change is under way the order of everything is open. A listed
cache starts on the change when its heartbeat brings the command; its threads
send their keys in their own time, reading each value when they send it; a
message in flight is handled when its destination gets to it, and handling it
may put a backup in flight. `Net.move` is one such step and `Net.run` any
sequence of them, so a statement about every sequence of moves is a statement
about every interleaving. The change is over when no cache waits, no key is
left to send and no message is in flight (`Net.Done`).

`Change` is what a change is to a cache: what the command does at once, and
which of the two caches its threads send from – `LC` for a cache that joins
(`Change.addCache`), `LC_BK` for a cache that was lost (`Change.refleshIp`).

A cluster remembers the writes of its clients, latest first, for the sake of
the statements: `last` is the value a key was last given.
-/

namespace Dcs

/-! ## A list change under way

A change is a step of the master that every cache on the list hears of, and the
caches do not hear of it at once. A cache that has not yet started works with the
ring it had; one that has started has its threads, each with the keys it is to
send to one cache, and the threads send when they come to it. What was sent is on
its way until the other cache handles it, in any order. A message handled may send
another one, a backup.

The two kinds of changes differ in what a cache does when it starts, and in where
the keys are taken from, `LC` or `LC_BK`. All else is the same, so a change is a
parameter here. -/

/-- What a change of the list means to a cache. -/
structure Change where
  /-- What the command does at once, and the buckets its threads send. -/
  start : CacheServer → Option (CacheServer × Buckets Bytes Bytes)
  /-- Where the threads read the values they send. -/
  source : CacheServer → LRUCache

/-- `ADD_CACHE` with a list. -/
def Change.addCache (iplist : List Bytes) : Change :=
  ⟨CacheServer.doitIplistchange iplist, CacheServer.lc⟩

/-- `REFLESH_IP` with a list. -/
def Change.refleshIp (iplist : List Bytes) : Change :=
  ⟨CacheServer.refleshHandler iplist, CacheServer.lcBk⟩

/-- **The caches while a change is under way.** -/
structure Net where
  /-- Every cache, by its address. -/
  caches : Bytes → CacheServer
  /-- The listed caches that have not started on the change. -/
  waiting : List Bytes
  /-- What is left to send: the sender, the destination and the key. -/
  jobs : List (Bytes × Bytes × Bytes)
  /-- The messages in flight, with their destinations. -/
  inflight : List (Bytes × Info)

/-- One step of the caches. -/
inductive Move
  /-- A listed cache starts on the change. -/
  | start (addr : Bytes)
  /-- A thread sends a key. -/
  | send (job : Bytes × Bytes × Bytes)
  /-- A message is handled at its destination. -/
  | deliver (message : Bytes × Info)

namespace Net

/-- A cache starts on the change: its ring is rebuilt and its threads have
their keys. -/
def begin (s : Net) (addr : Bytes) (r : CacheServer × Buckets Bytes Bytes) : Net :=
  { s with
    caches := Function.update s.caches addr r.1
    waiting := s.waiting.erase addr
    jobs := s.jobs ++ (r.1.outgoing r.2).map (fun e => (addr, e.1, e.2)) }

/-- A thread puts a key in flight. -/
def post (ch : Change) (s : Net) (job : Bytes × Bytes × Bytes) : Net :=
  { s with
    jobs := s.jobs.erase job
    inflight := s.inflight
      ++ [(job.2.1, CacheServer.sendoutData (ch.source (s.caches job.1)) job.2.2)] }

/-- A message is handled. A backup to a cache that is down is lost: the
connection fails. -/
def handle (up : Bytes → Bool) (s : Net) (message : Bytes × Info) : Net :=
  let r := (s.caches message.1).taskCfd message.2
  { s with
    caches := Function.update s.caches message.1 r.1
    inflight := s.inflight.erase message ++ r.2.filter (fun m => up m.1) }

/-- **One move**, undefined where it cannot be made. -/
def move (ch : Change) (up : Bytes → Bool) (s : Net) : Move → Option Net
  | .start addr =>
    if addr ∈ s.waiting then (ch.start (s.caches addr)).map (s.begin addr) else none
  | .send job => if job ∈ s.jobs then some (s.post ch job) else none
  | .deliver message => if message ∈ s.inflight then some (s.handle up message) else none

/-- Any sequence of moves. -/
def run (ch : Change) (up : Bytes → Bool) : Net → List Move → Option Net :=
  Runs.exec (move ch up)

/-- The change is over. -/
def Done (s : Net) : Prop := s.waiting = [] ∧ s.jobs = [] ∧ s.inflight = []

instance (s : Net) : Decidable s.Done := inferInstanceAs (Decidable (_ ∧ _ ∧ _))

theorem begin_caches (s : Net) (addr : Bytes) (r : CacheServer × Buckets Bytes Bytes)
    (a : Bytes) : (s.begin addr r).caches a = if a = addr then r.1 else s.caches a :=
  Function.update_apply _ _ _ _

theorem handle_caches (up : Bytes → Bool) (s : Net) (d : Bytes) (info : Info) (a : Bytes) :
    (s.handle up (d, info)).caches a
      = if a = d then ((s.caches d).taskCfd info).1 else s.caches a :=
  Function.update_apply _ _ _ _

/-- What holds of the caches as they were, and of the one that has handled a
message, holds of all. -/
theorem forall_handle_caches {up : Bytes → Bool} {s : Net} {message : Bytes × Info}
    {P : Bytes → CacheServer → Prop}
    (hhandled : P message.1 ((s.caches message.1).taskCfd message.2).1)
    (hold : ∀ a, P a (s.caches a)) (a : Bytes) : P a ((s.handle up message).caches a) := by
  rw [handle_caches up s message.1 message.2 a]
  by_cases ha : a = message.1
  · rw [if_pos ha, ha]
    exact hhandled
  · rw [if_neg ha]
    exact hold a

theorem handle_keyAddr (up : Bytes → Bool) (s : Net) (message : Bytes × Info) (a : Bytes) :
    ((s.handle up message).caches a).keyAddr = (s.caches a).keyAddr :=
  forall_handle_caches (P := fun a c => c.keyAddr = (s.caches a).keyAddr)
    (CacheServer.taskCfd_keyAddr _ _) (fun _ => rfl) a

/-- What is on its way or has arrived has arrived when the change is over. -/
theorem Done.arrived {s : Net} (h : s.Done) {addr : Bytes} {job : Bytes × Bytes × Bytes}
    {Sent P : Prop} (hsent : Sent → ∃ m, m ∈ s.inflight)
    (hp : addr ∈ s.waiting ∨ job ∈ s.jobs ∨ Sent ∨ P) : P := by
  obtain ⟨hw, hj, hf⟩ := h
  rw [hw, hj] at hp
  rw [hf] at hsent
  rcases hp with hwait | hjob | hs | harrived
  · exact absurd hwait List.not_mem_nil
  · exact absurd hjob List.not_mem_nil
  · obtain ⟨m, hm⟩ := hsent hs
    exact absurd hm List.not_mem_nil
  · exact harrived

/-- **What a move can be**: the three steps, each with what it needs. -/
theorem move_cases {ch : Change} {up : Bytes → Bool} {s t : Net} {m : Move}
    (h : s.move ch up m = some t) :
    (∃ addr r, addr ∈ s.waiting ∧ ch.start (s.caches addr) = some r ∧ t = s.begin addr r)
      ∨ (∃ job ∈ s.jobs, t = s.post ch job)
      ∨ ∃ message ∈ s.inflight, t = s.handle up message := by
  cases m with
  | start addr =>
    simp only [move] at h
    split at h
    · next hw =>
      obtain ⟨r, hr, ht⟩ := Option.map_eq_some_iff.mp h
      exact Or.inl ⟨addr, r, hw, hr, ht.symm⟩
    · exact absurd h (by simp)
  | send job =>
    simp only [move] at h
    split at h
    · next hj => exact Or.inr (Or.inl ⟨job, hj, (Option.some.inj h).symm⟩)
    · exact absurd h (by simp)
  | deliver message =>
    simp only [move] at h
    split at h
    · next hm => exact Or.inr (Or.inr ⟨message, hm, (Option.some.inj h).symm⟩)
    · exact absurd h (by simp)

end Net

/-! ## The cluster between changes

A client knows the list and sends a key to its owner. A write and the delivery of
its backup are one event: the owner handles the message, and the cache that gets
the backup stores it in `LC_BK`, where no write looks.

A list change is one event from the first cache that starts to the last message
that is handled. In it anything may be interleaved but the clients' writes. -/

/-- **The caches between changes**, with the writes of the clients. -/
structure Cluster where
  /-- Every cache, by its address. -/
  caches : Bytes → CacheServer
  /-- The current list. -/
  list : List Bytes
  /-- What the clients wrote, latest first. -/
  sets : List (Bytes × Bytes)

/-- The owner of a key on the ring of a list, which is where a client sends
it. -/
def owner (num : ℕ) (list : List Bytes) (key : Bytes) : Option Bytes :=
  ((ConsistentHash.new num).refreshIPList list).getServerIndex key

/-- What happens to a cluster. -/
inductive Event
  /-- A client writes a key. -/
  | set (key value : Bytes)
  /-- Caches join, and the caches of the new list work in the given order. -/
  | addCache (iplist : List Bytes) (moves : List Move)

namespace Cluster

/-- A cluster whose caches have just started, those on the list with its
ring. -/
def init (num : ℕ) (capacity : Bytes → ℤ) (list : List Bytes) : Cluster where
  caches addr :=
    let c := CacheServer.new addr num (capacity addr)
    if addr ∈ list then c.iplistchange list else c
  list := list
  sets := []

/-- The value a key was last given. -/
def last (s : Cluster) (key : Bytes) : Option Bytes :=
  (s.sets.find? (fun e => e.1 = key)).map Prod.snd

/-- The keys that were given a value. -/
def keys (s : Cluster) : Finset Bytes := (s.sets.map Prod.fst).toFinset

/-- A client's write, handled at the owner, its backup delivered. -/
def setKey (s : Cluster) (addr key value : Bytes) : Cluster :=
  let r := (s.caches addr).taskCfd (Info.keyValueRespond key value)
  { s with
    caches := r.2.foldl
      (fun caches m => Function.update caches m.1 ((caches m.1).taskCfd m.2).1)
      (Function.update s.caches addr r.1)
    sets := (key, value) :: s.sets }

/-- The listed caches about to start on a change. -/
def net (s : Cluster) (list : List Bytes) : Net := ⟨s.caches, list.dedup, [], []⟩

/-- **One event.** A write needs an owner; a list change needs a list that
keeps the caches there are, and moves that bring it to its end. -/
def step (num : ℕ) (s : Cluster) : Event → Option Cluster
  | .set key value => (owner num s.list key).map (fun addr => s.setKey addr key value)
  | .addCache iplist moves =>
    if s.list ⊆ iplist then
      (Net.run (Change.addCache iplist) (fun _ => true) (s.net iplist) moves).bind
        (fun t => if t.Done then some ⟨t.caches, iplist, s.sets⟩ else none)
    else none

/-- Any sequence of events. -/
def run (num : ℕ) : Cluster → List Event → Option Cluster := Runs.exec (step num)

/-- **What an event can be.** -/
theorem step_cases {num : ℕ} {s t : Cluster} {e : Event} (h : s.step num e = some t) :
    (∃ addr key value, e = Event.set key value ∧ owner num s.list key = some addr
        ∧ t = s.setKey addr key value)
      ∨ ∃ iplist moves n, e = Event.addCache iplist moves ∧ s.list ⊆ iplist
        ∧ Net.run (Change.addCache iplist) (fun _ => true) (s.net iplist) moves = some n
        ∧ n.Done ∧ t = ⟨n.caches, iplist, s.sets⟩ := by
  cases e with
  | set key value =>
    obtain ⟨addr, ho, ht⟩ := Option.map_eq_some_iff.mp h
    exact Or.inl ⟨addr, key, value, rfl, ho, ht.symm⟩
  | addCache iplist moves =>
    simp only [step] at h
    split at h
    · next hsub =>
      obtain ⟨n, hn, hd⟩ := Option.bind_eq_some_iff.mp h
      split at hd
      · next hdone =>
        exact Or.inr ⟨iplist, moves, n, rfl, hsub, hn, hdone, (Option.some.inj hd).symm⟩
      · exact absurd hd (by simp)
    · exact absurd h (by simp)

theorem sets_suffix_of_run {num : ℕ} {s t : Cluster} {es : List Event}
    (h : s.run num es = some t) : s.sets <:+ t.sets := by
  refine Runs.exec_invariant' (fun u => s.sets <:+ u.sets) (fun {u v e} hu hstep => ?_)
    (List.suffix_refl _) h
  obtain ⟨addr, key, value, -, -, rfl⟩ | ⟨_, _, n, -, -, -, -, rfl⟩ := step_cases hstep
  · exact hu.trans (List.suffix_cons _ _)
  · exact hu

theorem keys_subset_of_run {num : ℕ} {s t : Cluster} {es : List Event}
    (h : s.run num es = some t) : s.keys ⊆ t.keys := by
  intro k hk
  exact List.mem_toFinset.mpr
    (List.map_subset _ (sets_suffix_of_run h).subset (List.mem_toFinset.mp hk))

/-- **What every event preserves, every run preserves**, where an event may
count on its keys being among those of the whole run. -/
theorem run_invariant {num : ℕ} {K : Finset Bytes} {P : Cluster → Event → Prop}
    (I : Cluster → Prop)
    (hstep : ∀ {s t e}, I s → P s e → s.step num e = some t → t.keys ⊆ K → I t)
    {s t : Cluster} {es : List Event} (hs : I s) (hguard : Runs.Guarded (step num) P s es)
    (h : s.run num es = some t) (hK : t.keys ⊆ K) : I t := by
  induction es generalizing s with
  | nil =>
    obtain rfl : s = t := Option.some.inj h
    exact hs
  | cons e es ih =>
    obtain ⟨u, hu, hrest⟩ := Runs.exec_cons_eq_some.mp h
    have hKu : u.keys ⊆ K := (keys_subset_of_run hrest).trans hK
    exact ih (hstep hs hguard.1 hu hKu) (hguard.2 u hu) hrest

end Cluster

/-! ## Caches with room

Nothing below is about the values. As long as every key that moves is of a
set that fits, every cache keeps room for the set. -/

/-- **A cache at its address, with room for a set of keys.** -/
structure CacheServer.Fits (num : ℕ) (K : Finset Bytes) (addr : Bytes)
    (c : CacheServer) : Prop where
  /-- It knows its own address. -/
  curenAddr : c.curenAddr = addr
  /-- Its ring has the common number of virtual nodes. -/
  virtualNodeNum : c.keyAddr.virtualNodeNum = num
  lc : LRUCache.HoldsIn K c.lc
  lcBk : LRUCache.HoldsIn K c.lcBk

/-- The caches of a cluster that has just started have room. -/
theorem Cluster.fits_init (num : ℕ) {K : Finset Bytes} {capacity : Bytes → ℤ}
    (list : List Bytes) (hcap : ∀ addr, (K.card : ℤ) ≤ capacity addr) (addr : Bytes) :
    ((Cluster.init num capacity list).caches addr).Fits num K addr := by
  have hroom := LRUCache.holdsIn_new (hcap addr)
  unfold Cluster.init
  dsimp only
  split
  · refine ⟨rfl, ?_, hroom, hroom⟩
    exact (ConsistentHash.refreshIPList_virtualNodeNum _ _).trans
      (ConsistentHash.refreshIPList_virtualNodeNum _ _)
  · exact ⟨rfl, ConsistentHash.refreshIPList_virtualNodeNum _ _, hroom, hroom⟩

/-- The key a message stores, if it stores one, is of the set. -/
def Info.KeyIn (K : Finset Bytes) : Info → Prop
  | .keyValueRespond key _ => key ∈ K
  | .keyValueRespondBk key _ => key ∈ K
  | .keyValueRequest _ => False
  | .refleshMaster _ => False

/-- Handling a message keeps the room, and what it sends is of the set. -/
theorem CacheServer.Fits.taskCfd {num : ℕ} {K : Finset Bytes} {addr : Bytes}
    {c : CacheServer} (h : c.Fits num K addr) {info : Info} (hk : info.KeyIn K) :
    (c.taskCfd info).1.Fits num K addr ∧ ∀ m ∈ (c.taskCfd info).2, m.2.KeyIn K := by
  cases info with
  | keyValueRequest key => exact hk.elim
  | refleshMaster iplist => exact hk.elim
  | keyValueRespondBk key value =>
    exact ⟨⟨h.curenAddr, h.virtualNodeNum, h.lc, (h.lcBk.put hk value).1⟩,
      fun m hm => absurd hm List.not_mem_nil⟩
  | keyValueRespond key value =>
    refine ⟨?_, fun m hm => ?_⟩
    · show (c.kvrespondHandler false key value).1.Fits num K addr
      rw [CacheServer.kvrespondHandler_false]
      exact ⟨h.curenAddr, h.virtualNodeNum, (h.lc.put hk value).1, h.lcBk⟩
    · rw [CacheServer.mem_kvrespondHandler_false hm]
      exact hk

/-- A change that keeps the room of a cache and sends keys of the set. -/
def Change.Fits (num : ℕ) (K : Finset Bytes) (ch : Change) : Prop :=
  ∀ {addr c r}, CacheServer.Fits num K addr c → ch.start c = some r →
    r.1.Fits num K addr ∧ ∀ e ∈ r.2.pairs, e.2 ∈ K

theorem Change.fits_addCache (num : ℕ) (K : Finset Bytes) (iplist : List Bytes) :
    (Change.addCache iplist).Fits num K := by
  intro addr c r hc hr
  obtain ⟨b, hb, rfl⟩ := Option.map_eq_some_iff.mp hr
  refine ⟨⟨hc.curenAddr, ?_, hc.lc, hc.lcBk⟩, fun e he => ?_⟩
  · exact (ConsistentHash.refreshIPList_virtualNodeNum _ _).trans hc.virtualNodeNum
  · exact hc.lc.held e.2 (AList.mem_keys.mpr ((Buckets.mem_pairs_group hb e.1 e.2).mp he).1)

/-- **The room while a change is under way.** -/
structure Net.Fits (num : ℕ) (K : Finset Bytes) (s : Net) : Prop where
  caches : ∀ addr, (s.caches addr).Fits num K addr
  jobs : ∀ j ∈ s.jobs, j.2.2 ∈ K
  inflight : ∀ m ∈ s.inflight, m.2.KeyIn K

/-- Every move keeps the room. -/
theorem Net.Fits.move {num : ℕ} {K : Finset Bytes} {ch : Change} {up : Bytes → Bool}
    (hch : ch.Fits num K) {s t : Net} {m : Move} (hs : s.Fits num K)
    (h : s.move ch up m = some t) : t.Fits num K := by
  obtain ⟨addr, r, -, hr, rfl⟩ | ⟨job, hj, rfl⟩ | ⟨message, hm, rfl⟩ := Net.move_cases h
  · obtain ⟨hfit, hkeys⟩ := hch (hs.caches addr) hr
    refine ⟨fun a => ?_, fun j hj => ?_, hs.inflight⟩
    · rw [begin_caches]
      by_cases ha : a = addr
      · rw [if_pos ha, ha]
        exact hfit
      · rw [if_neg ha]
        exact hs.caches a
    · rcases List.mem_append.mp hj with hold | hnew
      · exact hs.jobs j hold
      · obtain ⟨e, he, rfl⟩ := List.mem_map.mp hnew
        exact hkeys e (List.mem_filter.mp he).1
  · refine ⟨hs.caches, fun j hj' => hs.jobs j (List.mem_of_mem_erase hj'), fun m hm => ?_⟩
    rcases List.mem_append.mp hm with hold | hnew
    · exact hs.inflight m hold
    · rw [List.mem_singleton.mp hnew]
      exact hs.jobs job hj
  · obtain ⟨hfit, hkeys⟩ := (hs.caches message.1).taskCfd (hs.inflight message hm)
    refine ⟨forall_handle_caches hfit hs.caches, hs.jobs, fun m hm' => ?_⟩
    rcases List.mem_append.mp hm' with hold | hnew
    · exact hs.inflight m (List.mem_of_mem_erase hold)
    · exact hkeys m (List.mem_filter.mp hnew).1

end Dcs
