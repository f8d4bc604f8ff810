import LinuxStudy.MiniManager

/-!
# Connections and timers of the small master

`NetServer` accepts connections, sets a timer for each, and closes a
connection when its timer expires, when the peer closes it or when reading
from it fails. A read or a write puts the timer off. The heartbeat of a cache
server that is not registered yet gives the timer of its connection another
callback, `someCacheServerLost`, which deletes the server and does not close
the connection.

So the timers and the connections come apart in two ways. `closeConnection`
erases the connection and leaves its timer, which goes on to refer to the
connection; and when a timer of `someCacheServerLost` expires, the timer goes
and the connection stays, and the next read from it fails the assertion of
`update`. `paired_of_exec` says that nothing else tears them apart: as long as
connections are closed by their timers only, and no timer of a cache server
expires, they stay paired.

But a connection that is closed is also used once more. `users_` holds the
`Connection` objects, `closeConnection` erases the object it was given, and
calls `getFd` and `closeConnect` on it after that, whoever has called it
(`Paired.usedErased`). Whether an object has been used that was erased is
recorded in the state, and nothing is read from it: what follows goes to the
kernel. `timers_paired` is about the runs in which it never happens.

`closeConnection` deletes the machine from the registry, and nothing more;
the ring is built anew by notifications only. `ring_follows_registry` says
that the ring is that of the registry as long as no connection of a
registered server is closed.

Every operation is one step, as in a single thread, and `m_sourceMutex` is
read as never blocking its own holder. An event that sifts a timer up brings
what stands before the timers, for each time that can happen (`TimerRoot`): the
program goes on if it is a time before that of the timer in front, and else
there is no step.
-/

namespace MiniDcs

open Socket

/-- The callback is that of a cache server's timer. -/
def Callback.IsLost : Callback → Prop
  | .closeConnection _ _ => False
  | .someCacheServerLost _ => True

instance (cb : Callback) : Decidable cb.IsLost :=
  match cb with
  | .closeConnection _ _ => inferInstanceAs (Decidable False)
  | .someCacheServerLost _ => inferInstanceAs (Decidable True)

/-- Which connection an entry of `users_` is. -/
def User.ident (c : User) : ℤ × SockAddr × ℕ := (c.conn.fd, c.conn.addr, c.serial)

namespace Server

/-- `timeOutMs_`. -/
def timeOutMs : ℤ := 2000

/-- `addConnection`, at a time, with what the memory of the new object held and
what stands before the timers. -/
def addConnection (fd : ℤ) (addr : SockAddr) (now : ℤ) (memory : Iovec × Iovec × Bool)
    (outside : Option ℤ) (s : Server) : Except Failure Server :=
  let conn := (Connection.new memory.1 memory.2.1 memory.2.2).initConnection fd addr
  withTimer { s with users := s.users.insert fd ⟨conn, s.serials⟩, serials := s.serials + 1 }
    (TimerManager.Unguarded.addTimer outside s.timer now fd timeOutMs
      (.closeConnection fd s.serials))

/-- `client->`: an object is used, be it in `users_` or not. -/
def useObject (fd : ℤ) (serial : ℕ) (s : Server) : Server :=
  if ∃ client ∈ s.users.lookup fd, client.serial = serial then s else { s with usedErased := true }

/-- `closeConnection` on an object. The object is erased, and used after that,
by `delFd(client->getFd())` and `closeConnect`. -/
def closeConnection (fd : ℤ) (serial : ℕ) (s : Server) : Except Failure Server :=
  match s.users.lookup fd with
  | none => .error .dangling
  | some client =>
    if client.serial = serial then do
      let s ← s.deleteOneMachine true client.conn.addr
      return useObject fd serial { s with users := s.users.erase client.conn.fd }
    else .error .dangling

/-- `extentTime`. -/
def extentTime (fd now : ℤ) (s : Server) : Except Failure Server :=
  s.withTimer (s.timer.update now fd timeOutMs)

/-- Run the callback of a timer. -/
def callback : Callback → Server → Except Failure Server
  | .closeConnection fd serial => closeConnection fd serial
  | .someCacheServerLost addr => someCacheServerLost true addr

/-- The loop of `handle_expired_event`, in at most so many rounds. -/
def expireLoop (outside : ℕ → Option ℤ) (clock : ℕ → ℤ) :
    ℕ → ℕ → Server → Except Failure Server
  | 0, _, s => .ok s
  | rounds + 1, k, s =>
    match s.timer.heap[0]? with
    | none => .ok s
    | some node =>
      if node.Expired (clock k) then do
        let s ← s.callback node.cb
        let s ← s.withTimer (TimerManager.Unguarded.pop (outside k) s.timer)
        expireLoop outside clock rounds (k + 1) s
      else .ok s

/-- `handle_expired_event`, by the times it reads from the clock and what stands
before the timers in each round. A callback does not touch the timers, so there
are as many rounds as timers at most. -/
def handleExpiredEvent (outside : ℕ → Option ℤ) (clock : ℕ → ℤ) (s : Server) :
    Except Failure Server :=
  expireLoop outside clock s.timer.heap.size 0 s

/-- What may happen. -/
inductive Event
  /-- A connection is accepted. -/
  | accept (fd : ℤ) (addr : SockAddr) (now : ℤ) (memory : Iovec × Iovec × Bool)
    (outside : Option ℤ)
  /-- The peer closes a connection, or reading from it fails. -/
  | close (fd : ℤ)
  /-- A connection can be read or written. -/
  | extend (fd now : ℤ)
  /-- A heartbeat comes on a connection. -/
  | heartbeat (fd now : ℤ) (outside : Option ℤ)
  /-- `shutDownOneMachine`. -/
  | shutDown (addr : SockAddr)
  /-- Timers expire. -/
  | expire (outside : ℕ → Option ℤ) (clock : ℕ → ℤ)

/-- What an event does. The kernel gives a new connection a descriptor that is
not in use. -/
def handle (s : Server) : Event → Except Failure Server
  | .accept fd addr now memory outside => s.addConnection fd addr now memory outside
  | .close fd =>
    match s.users.lookup fd with
    | none => .error .assertion
    | some client => s.closeConnection fd client.serial
  | .extend fd now => if fd ∈ s.users then s.extentTime fd now else .error .assertion
  | .heartbeat fd now outside =>
    match s.users.lookup fd with
    | none => .error .dangling
    | some client => s.cacheServerKeepAlive true outside now client.conn.addr
  | .shutDown addr => s.shutDownOneMachine true addr
  | .expire outside clock => s.handleExpiredEvent outside clock

/-- An event can happen. -/
def Possible (s : Server) : Event → Prop
  | .accept fd _ _ _ _ => 0 < fd ∧ fd ∉ s.users
  | .close fd => fd ∈ s.users
  | .extend fd _ => fd ∈ s.users
  | .heartbeat fd _ _ => fd ∈ s.users
  | .shutDown _ => True
  | .expire _ _ => True

instance (s : Server) (e : Event) : Decidable (s.Possible e) :=
  match e with
  | .accept .. => inferInstanceAs (Decidable (_ ∧ _))
  | .close fd => inferInstanceAs (Decidable (fd ∈ s.users))
  | .extend fd _ => inferInstanceAs (Decidable (fd ∈ s.users))
  | .heartbeat fd _ _ => inferInstanceAs (Decidable (fd ∈ s.users))
  | .shutDown _ => inferInstanceAs (Decidable True)
  | .expire _ _ => inferInstanceAs (Decidable True)

/-- One event, undefined where it cannot happen or does not end. -/
def step (s : Server) (e : Event) : Option Server :=
  if s.Possible e then (s.handle e).toOption else none

/-! ## What each operation can do

The operations of the manager are described here by what they do to connections
and timers. A notification changes what is to be sent to some of the connections
and nothing else of them, and this is why connections are compared by their
descriptors, peers and numbers only. -/

variable {s t : Server}

/-- **The same connections**, whatever was sent to them. -/
def SameUsers (s t : Server) : Prop :=
  ∀ fd, (t.users.lookup fd).map User.ident = (s.users.lookup fd).map User.ident

theorem SameUsers.exists_lookup (h : SameUsers s t) {fd : ℤ} {c : User}
    (hc : t.users.lookup fd = some c) :
    ∃ c', s.users.lookup fd = some c' ∧ c'.ident = c.ident := by
  have hfd := h fd
  rw [hc] at hfd
  exact Option.map_eq_some_iff.mp hfd.symm

theorem SameUsers.symm (h : SameUsers s t) : SameUsers t s := fun fd => (h fd).symm

theorem SameUsers.mem_iff (h : SameUsers s t) (fd : ℤ) : fd ∈ t.users ↔ fd ∈ s.users := by
  rw [← AList.lookup_isSome, ← AList.lookup_isSome]
  have hfd := congrArg Option.isSome (h fd)
  rw [Option.isSome_map, Option.isSome_map] at hfd
  rw [hfd]

theorem sameUsers_notified (s : Server) (text : Bytes) : SameUsers s (s.notified text) := by
  intro fd
  show (AList.lookup fd (s.users.map _)).map User.ident = _
  rw [Users.lookup_map, Option.map_map]
  refine congrArg (fun f => Option.map f (s.users.lookup fd)) (funext (fun c => ?_))
  show User.ident (if _ then _ else _) = _
  split <;> rfl

/-- **`someCacheServerLost` and `shutDownOneMachine`** delete the machine and
notify. -/
theorem delete_notify_ok {addr : SockAddr} {type : ℕ}
    (h : (s.deleteOneMachine true addr >>= notifyCacheServer true type) = .ok t) :
    ∃ text, t = notified { s with registry := s.registry.deleteOneMachine addr } text := by
  rw [Unblocked.delete_notify_eq (Or.inl rfl)] at h
  split at h
  · exact ⟨_, (Except.ok.inj h).symm⟩
  · exact absurd h (by simp)

theorem withTimer_ok {timer : Option (TimerManager Callback)} (h : s.withTimer timer = .ok t) :
    ∃ timer', timer = some timer' ∧ t = { s with timer := timer' } := by
  cases timer with
  | none => exact absurd h (by simp [withTimer])
  | some timer' => exact ⟨timer', rfl, (Except.ok.inj h).symm⟩

/-- **A heartbeat** puts off the timer of a server that is registered, and
otherwise registers it, sets the timer and notifies. -/
theorem cacheServerKeepAlive_ok {outside : Option ℤ} {now : ℤ} {addr : SockAddr}
    (h : s.cacheServerKeepAlive true outside now addr = .ok t) :
    (s.registry.Known addr ∧ ∃ timer,
        s.timer.update now (s.findFdAcrAddr addr) 2500 = some timer
        ∧ t = { s with timer := timer })
      ∨ (¬ s.registry.Known addr ∧ ∃ timer text,
        s.timer.addTimer now (s.findFdAcrAddr addr) 2500 (.someCacheServerLost addr) = some timer
        ∧ t = notified { s with registry := s.registry.register addr, timer := timer } text) := by
  by_cases hknown : s.registry.Known addr
  · rw [Unblocked.cacheServerKeepAlive_known (Or.inl rfl) outside now hknown] at h
    exact Or.inl ⟨hknown, withTimer_ok h⟩
  · rw [Unblocked.cacheServerKeepAlive_new (Or.inl rfl) outside now hknown] at h
    split at h
    · exact absurd h (by simp)
    · next timer htimer =>
      rw [Unblocked.notifyCacheServer_eq (Or.inl rfl)] at h
      dsimp only at h
      split at h
      · exact Or.inr ⟨hknown, timer, _, TimerManager.Unguarded.addTimer_eq_some htimer,
          (Except.ok.inj h).symm⟩
      · exact absurd h (by simp [Except.map])

/-- **`closeConnection`** on an object that is there erases it, deletes its
machine and leaves the timers. -/
theorem closeConnection_ok {fd : ℤ} {serial : ℕ} (h : s.closeConnection fd serial = .ok t) :
    ∃ client, s.users.lookup fd = some client ∧ client.serial = serial
      ∧ t = useObject fd serial { s with
        registry := s.registry.deleteOneMachine client.conn.addr
        users := s.users.erase client.conn.fd } := by
  unfold closeConnection at h
  split at h
  · exact absurd h (by simp)
  · next client hclient =>
    split at h
    · next hserial =>
      rw [Unblocked.deleteOneMachine_eq (Or.inl rfl)] at h
      exact ⟨client, hclient, hserial, (Except.ok.inj h).symm⟩
    · exact absurd h (by simp)

theorem useObject_eq (fd : ℤ) (serial : ℕ) (s : Server) :
    ∃ usedErased, s.useObject fd serial = { s with usedErased := usedErased } := by
  unfold useObject
  split
  · exact ⟨s.usedErased, rfl⟩
  · exact ⟨true, rfl⟩

/-- **One round of `handle_expired_event`**: it ends, or the first timer
expires, its callback is run and it is taken. -/
theorem expireLoop_succ (outside : ℕ → Option ℤ) (clock : ℕ → ℤ) (rounds k : ℕ) (s : Server) :
    expireLoop outside clock (rounds + 1) k s = .ok s
      ∨ ∃ node, s.timer.heap[0]? = some node
        ∧ TimerManager.firedLoop clock (rounds + 1) k s.timer
          = node :: TimerManager.firedLoop clock rounds (k + 1) s.timer.pop
        ∧ expireLoop outside clock (rounds + 1) k s
          = s.callback node.cb >>= fun u =>
            u.withTimer (TimerManager.Unguarded.pop (outside k) u.timer)
              >>= expireLoop outside clock rounds (k + 1) := by
  rw [expireLoop, TimerManager.firedLoop]
  cases s.timer.heap[0]? with
  | none => exact Or.inl rfl
  | some node =>
    dsimp only
    by_cases hexpired : node.Expired (clock k)
    · rw [if_pos hexpired, if_pos hexpired]
      exact Or.inr ⟨node, rfl, rfl, rfl⟩
    · exact Or.inl (if_neg hexpired)

/-- A round that goes on: the callback is run, and the timer taken. -/
theorem round_ok {outside : Option ℤ} {cb : Callback} {f : Server → Except Failure Server}
    (h : (s.callback cb >>= fun u =>
      u.withTimer (TimerManager.Unguarded.pop outside u.timer) >>= f) = .ok t) :
    ∃ u, s.callback cb = .ok u ∧ f { u with timer := u.timer.pop } = .ok t := by
  cases hcall : s.callback cb with
  | error failure =>
    rw [hcall] at h
    exact absurd h (by simp [bind, Except.bind])
  | ok u =>
    rw [hcall] at h
    change (u.withTimer (TimerManager.Unguarded.pop outside u.timer) >>= f) = _ at h
    cases hpop : TimerManager.Unguarded.pop outside u.timer with
    | none =>
      rw [hpop] at h
      exact absurd h (by simp [withTimer, bind, Except.bind])
    | some timer =>
      rw [hpop] at h
      obtain ⟨-, rfl⟩ := TimerManager.Unguarded.pop_eq_some hpop
      exact ⟨u, rfl, h⟩

/-! ## Timers and connections

A timer has the descriptor of its connection for an id, and a callback that closes
an object, which is named by its number: the same descriptor may be given out
again. A read or a heartbeat puts off the timer of its connection, and asserts
that there is one.

A connection that is closed by its timer leaves both maps together, and the timers
stay paired with what is left. But the object that closes it is used after it was
erased, and by no rule of the language is that anything; so a run in which this
happens has it on record. Without it, no connection is closed at all. -/

/-- **The timers and the connections are paired**: there is a timer for each
connection and no other, and a timer that closes a connection closes the one
it is for. -/
structure Paired (s : Server) : Prop where
  indexed : s.timer.Indexed
  ids : ∀ id, id ∈ s.timer.ref ↔ id ∈ s.users
  alive : ∀ {id fd serial}, (id, Callback.closeConnection fd serial) ∈ s.timer.timers →
    fd = id ∧ ∃ c, s.users.lookup id = some c ∧ c.serial = serial
  fds : ∀ {fd c}, s.users.lookup fd = some c → c.conn.fd = fd ∧ 0 < fd

namespace Paired

/-- Nothing but what is sent to connections, the registry and the ring is
changed. -/
theorem of_sameUsers (h : s.Paired) (hsame : SameUsers s t) (htimer : t.timer = s.timer) :
    t.Paired := by
  refine ⟨htimer ▸ h.indexed, fun id => ?_, fun {id fd serial} hmem => ?_, fun {fd c} hc => ?_⟩
  · rw [htimer, hsame.mem_iff]
    exact h.ids id
  · rw [htimer] at hmem
    obtain ⟨hfd, c, hc, hserial⟩ := h.alive hmem
    obtain ⟨c', hc', hident⟩ := hsame.symm.exists_lookup hc
    exact ⟨hfd, c', hc', (congrArg (fun x => x.2.2) hident).trans hserial⟩
  · obtain ⟨c', hc', hident⟩ := hsame.exists_lookup hc
    obtain ⟨hfd, hpos⟩ := h.fds hc'
    exact ⟨(congrArg Prod.fst hident).symm.trans hfd, hpos⟩

theorem withTimer (h : s.Paired) {timer : TimerManager Callback} (hindexed : timer.Indexed)
    (hids : ∀ id, (∃ cb, (id, cb) ∈ timer.timers) ↔ ∃ cb, (id, cb) ∈ s.timer.timers)
    (hcb : ∀ {id fd serial}, (id, Callback.closeConnection fd serial) ∈ timer.timers →
      (id, Callback.closeConnection fd serial) ∈ s.timer.timers) :
    ({ s with timer := timer } : Server).Paired := by
  refine ⟨hindexed, fun id => ?_, fun hmem => h.alive (hcb hmem), h.fds⟩
  rw [hindexed.mem_ref_iff, hids, ← h.indexed.mem_ref_iff]
  exact h.ids id

/-- **The assertion of `update` holds** for a connection that is there, and
the timers stay paired. -/
theorem update (h : s.Paired) {fd : ℤ} (hfd : fd ∈ s.users) (now timeout : ℤ) :
    ∃ timer, s.timer.update now fd timeout = some timer
      ∧ ({ s with timer := timer } : Server).Paired := by
  obtain ⟨timer, hupdate, hindexed, htimers⟩ :=
    h.indexed.update_spec now timeout ((h.ids fd).mpr hfd)
  refine ⟨timer, hupdate, h.withTimer hindexed (fun id => ?_) (fun {id fd serial} hmem => ?_)⟩
  · exact exists_congr (fun cb => htimers (id, cb))
  · exact (htimers _).mp hmem

/-- The timer of a connection that is there gets another callback. -/
theorem addTimer_lost (h : s.Paired) {fd : ℤ} (hfd : fd ∈ s.users) (hpos : 0 < fd)
    {now timeout : ℤ} {addr : SockAddr} {timer : TimerManager Callback}
    (hadd : s.timer.addTimer now fd timeout (.someCacheServerLost addr) = some timer) :
    ({ s with timer := timer } : Server).Paired := by
  obtain ⟨timer', hadd', hindexed, htimers⟩ :=
    h.indexed.addTimer_spec now timeout (.someCacheServerLost addr) hpos.le
  obtain rfl := Option.some.inj (hadd.symm.trans hadd')
  obtain ⟨cb₀, hcb₀⟩ := h.indexed.mem_ref_iff.mp ((h.ids fd).mpr hfd)
  refine h.withTimer hindexed (fun id => ?_) (fun {id fd' serial} hmem => ?_)
  · constructor
    · rintro ⟨cb, hcb⟩
      rcases (htimers _).mp hcb with heq | ⟨hold, -⟩
      · obtain ⟨rfl, -⟩ := Prod.mk.inj heq
        exact ⟨cb₀, hcb₀⟩
      · exact ⟨cb, hold⟩
    · rintro ⟨cb, hcb⟩
      by_cases hid : id = fd
      · subst hid
        exact ⟨_, (htimers _).mpr (Or.inl rfl)⟩
      · exact ⟨cb, (htimers _).mpr (Or.inr ⟨hcb, hid⟩)⟩
  · rcases (htimers _).mp hmem with heq | ⟨hold, -⟩
    · exact absurd (Prod.mk.inj heq).2 (by simp)
    · exact hold

/-- **The connection of an address that is there is found.** -/
theorem findFdAcrAddr (h : s.Paired) {fd : ℤ} {c : User} (hc : s.users.lookup fd = some c) :
    s.findFdAcrAddr c.conn.addr ∈ s.users ∧ 0 < s.findFdAcrAddr c.conn.addr := by
  unfold Server.findFdAcrAddr
  split
  · next e he =>
    have hlookup : s.users.lookup e.1 = some e.2 :=
      AList.mem_lookup_iff.mpr (List.mem_of_find?_eq_some he)
    obtain ⟨hfd, hpos⟩ := h.fds hlookup
    rw [hfd]
    exact ⟨AList.lookup_isSome.mp (by rw [hlookup]; rfl), hpos⟩
  · next hnone =>
    have hmem : (⟨fd, c⟩ : Sigma (fun _ : ℤ => User)) ∈ s.users.entries :=
      AList.mem_lookup_iff.mp hc
    exact absurd (decide_eq_true rfl) (List.find?_eq_none.mp hnone _ hmem)

/-- **A connection is accepted with a timer.** -/
theorem addConnection (h : s.Paired) {fd : ℤ} (hpos : 0 < fd) (hnew : fd ∉ s.users)
    {addr : SockAddr} {now : ℤ} {memory : Iovec × Iovec × Bool} {outside : Option ℤ}
    (hadd : s.addConnection fd addr now memory outside = .ok t) : t.Paired := by
  obtain ⟨timer, hsome, rfl⟩ := withTimer_ok hadd
  have htimer := TimerManager.Unguarded.addTimer_eq_some hsome
  obtain ⟨timer', htimer', hindexed, htimers⟩ :=
    h.indexed.addTimer_spec now timeOutMs (.closeConnection fd s.serials) hpos.le
  obtain rfl := Option.some.inj (htimer.symm.trans htimer')
  have hin : ∀ (id : ℤ) (c : User), id ∈ AList.insert fd c s.users ↔ id = fd ∨ id ∈ s.users :=
    fun _ _ => AList.mem_insert _
  refine ⟨hindexed, fun id => ?_, fun {id fd' serial} hmem => ?_, fun {fd' c} hc => ?_⟩
  · refine Iff.trans ?_ (hin id _).symm
    rw [hindexed.mem_ref_iff, ← h.ids, h.indexed.mem_ref_iff]
    constructor
    · rintro ⟨cb, hcb⟩
      rcases (htimers _).mp hcb with heq | ⟨hold, -⟩
      · exact Or.inl (Prod.mk.inj heq).1
      · exact Or.inr ⟨cb, hold⟩
    · rintro (rfl | ⟨cb, hcb⟩)
      · exact ⟨_, (htimers _).mpr (Or.inl rfl)⟩
      · have hmem : id ∈ s.users := (h.ids id).mp (h.indexed.mem_ref_iff.mpr ⟨cb, hcb⟩)
        refine ⟨cb, (htimers _).mpr (Or.inr ⟨hcb, ?_⟩)⟩
        rintro rfl
        exact hnew hmem
  · rcases (htimers _).mp hmem with heq | ⟨hold, hne⟩
    · obtain ⟨rfl, heq⟩ := Prod.mk.inj heq
      obtain ⟨rfl, rfl⟩ := Callback.closeConnection.inj heq
      exact ⟨rfl, _, AList.lookup_insert _, rfl⟩
    · obtain ⟨hfd, c, hc, hserial⟩ := h.alive hold
      exact ⟨hfd, c, (AList.lookup_insert_ne hne).trans hc, hserial⟩
  · by_cases hfd : fd' = fd
    · subst hfd
      obtain rfl := Option.some.inj ((AList.lookup_insert _).symm.trans hc)
      exact ⟨rfl, hpos⟩
    · exact h.fds ((AList.lookup_insert_ne hfd).symm.trans hc)

/-- **A connection is closed by its timer**: both go. -/
theorem expire_close (h : s.Paired) {node : TimeNode Callback}
    (hfront : s.timer.heap[0]? = some node) {fd : ℤ} {serial : ℕ}
    (hcb : node.cb = .closeConnection fd serial) (hcall : s.callback node.cb = .ok t) :
    t.timer = s.timer ∧ ({ t with timer := t.timer.pop } : Server).Paired := by
  have hmem : (node.id, Callback.closeConnection fd serial) ∈ s.timer.timers :=
    TimerManager.mem_timers_iff.mpr ⟨0, node, hfront, by rw [hcb]⟩
  obtain ⟨rfl, -⟩ := h.alive hmem
  rw [hcb] at hcall
  obtain ⟨c, hc, -, rfl⟩ := closeConnection_ok hcall
  obtain ⟨hfd, -⟩ := h.fds hc
  rw [hfd]
  obtain ⟨usedErased, hused⟩ := useObject_eq node.id serial
    { s with
      registry := s.registry.deleteOneMachine c.conn.addr, users := s.users.erase node.id }
  rw [hused]
  obtain ⟨hindexed, -, htimers⟩ := h.indexed.pop_spec hfront
  refine ⟨rfl, hindexed, fun id => ?_, fun {id fd' serial'} hid => ?_, fun {fd' c'} hc' => ?_⟩
  · -- the id that goes from the timers goes from the connections
    show id ∈ s.timer.pop.ref ↔ id ∈ s.users.erase node.id
    rw [hindexed.mem_ref_iff, AList.mem_erase, ← h.ids, h.indexed.mem_ref_iff,
      ← exists_and_left]
    exact exists_congr (fun cb => (htimers (id, cb)).trans and_comm)
  · obtain ⟨hold, hne⟩ := (htimers _).mp hid
    obtain ⟨hfd', c', hc', hserial'⟩ := h.alive hold
    exact ⟨hfd', c', (AList.lookup_erase_ne hne).trans hc', hserial'⟩
  · have hne : fd' ≠ node.id := by
      rintro rfl
      exact absurd ((AList.lookup_erase _ s.users).symm.trans hc') (by simp)
    exact h.fds ((AList.lookup_erase_ne hne).symm.trans hc')

/-- **Timers that close their connections expire**, one after the other. -/
theorem expireLoop (h : s.Paired) {outside : ℕ → Option ℤ} {clock : ℕ → ℤ} {rounds k : ℕ}
    (hfired : ∀ node ∈ TimerManager.firedLoop clock rounds k s.timer, ¬ node.cb.IsLost)
    (hrun : Server.expireLoop outside clock rounds k s = .ok t) : t.Paired := by
  induction rounds generalizing s k with
  | zero => exact Except.ok.inj hrun ▸ h
  | succ rounds ih =>
    rcases expireLoop_succ outside clock rounds k s with hends | ⟨node, hfront, hlist, hround⟩
    · exact Except.ok.inj (hends.symm.trans hrun) ▸ h
    · rw [hlist] at hfired
      obtain ⟨u, hcall, hrest⟩ := round_ok (hround.symm.trans hrun)
      cases hcb : node.cb with
      | someCacheServerLost addr =>
        exact absurd (hcb ▸ trivial) (hfired node List.mem_cons_self)
      | closeConnection fd serial =>
        obtain ⟨htimer, hpaired⟩ := h.expire_close hfront hcb hcall
        refine ih hpaired (fun node' hnode' => hfired node' (List.mem_cons_of_mem _ ?_)) hrest
        rw [← htimer]
        exact hnode'

/-- **What is closed is used after it is erased.** -/
theorem usedErased (h : s.Paired) {fd : ℤ} {serial : ℕ}
    (hrun : s.closeConnection fd serial = .ok t) : t.usedErased = true := by
  obtain ⟨c, hc, -, rfl⟩ := closeConnection_ok hrun
  obtain ⟨rfl, -⟩ := h.fds hc
  unfold useObject
  dsimp only
  rw [AList.lookup_erase, if_neg (by simp)]

end Paired

/-- **What keeps the timers and the connections paired**: no connection is
closed but by its timer, and no timer of a cache server expires. -/
def KeepsPaired (s : Server) : Event → Prop
  | .close _ => False
  | .expire _ clock => ∀ node ∈ s.timer.fired clock, ¬ node.cb.IsLost
  | _ => True

/-- What one event does, where it can happen and ends. -/
theorem step_eq_some {e : Event} (h : s.step e = some t) : s.Possible e ∧ s.handle e = .ok t := by
  unfold step at h
  split at h
  · next hpossible =>
    cases hrun : s.handle e with
    | error failure =>
      rw [hrun] at h
      exact absurd h (by simp [Except.toOption])
    | ok u =>
      rw [hrun] at h
      exact ⟨hpossible, congrArg Except.ok (Option.some.inj h)⟩
  · exact absurd h (by simp)

/-- **One event keeps the timers and the connections paired.** -/
theorem Paired.step (h : s.Paired) {e : Event} (hkeeps : s.KeepsPaired e)
    (hstep : s.step e = some t) : t.Paired := by
  obtain ⟨hpossible, hrun⟩ := step_eq_some hstep
  cases e with
  | accept fd addr now memory outside => exact h.addConnection hpossible.1 hpossible.2 hrun
  | close fd => exact absurd hkeeps id
  | extend fd now =>
    obtain ⟨timer, hupdate, hpaired⟩ := h.update hpossible now timeOutMs
    change (if fd ∈ s.users then s.extentTime fd now else _) = _ at hrun
    rw [if_pos (show fd ∈ s.users from hpossible)] at hrun
    obtain ⟨timer', htimer', rfl⟩ := withTimer_ok hrun
    obtain rfl := Option.some.inj (hupdate.symm.trans htimer')
    exact hpaired
  | heartbeat fd now outside =>
    obtain ⟨c, hc⟩ := Option.isSome_iff_exists.mp (AList.lookup_isSome.mpr hpossible)
    change (match s.users.lookup fd with | none => _ | some client => _) = _ at hrun
    rw [hc] at hrun
    obtain ⟨hfd, hpos⟩ := h.findFdAcrAddr hc
    rcases cacheServerKeepAlive_ok hrun with ⟨-, timer, htimer, rfl⟩ | ⟨-, timer, text, htimer, rfl⟩
    · obtain ⟨timer', hupdate, hpaired⟩ := h.update hfd now 2500
      obtain rfl := Option.some.inj (hupdate.symm.trans htimer)
      exact hpaired
    · refine (h.addTimer_lost hfd hpos htimer).of_sameUsers ?_ rfl
      exact sameUsers_notified _ text
  | shutDown addr =>
    obtain ⟨text, rfl⟩ := delete_notify_ok hrun
    exact h.of_sameUsers (sameUsers_notified _ text) rfl
  | expire outside clock => exact h.expireLoop hkeeps hrun

theorem paired_start : start.Paired := by
  refine ⟨fun id i => ?_, fun id => ?_, fun {id fd serial} hmem => ?_, fun {fd c} hc => ?_⟩
  · exact iff_of_false (by simp [start, TimerManager.empty])
      (fun ⟨node, hnode, _⟩ => absurd hnode (by simp [start, TimerManager.empty]))
  · exact iff_of_false (AList.notMem_empty id) (AList.notMem_empty id)
  · exact absurd hmem (by simp [start, TimerManager.empty, TimerManager.timers])
  · exact absurd hc (by simp [start])

/-- **The timers and the connections stay paired** in every run in which no
connection is closed but by its timer and no timer of a cache server expires. -/
theorem paired_of_exec {es : List Event} (hg : Runs.Guarded step KeepsPaired start es)
    (h : Runs.exec step start es = some s) : s.Paired :=
  Runs.exec_invariant Paired (fun hi hp he => hi.step hp he) paired_start hg h

/-- **No connection is closed**: not by its peer, and not by a timer, as the one
in front is not due. -/
def ClosesNone (s : Server) : Event → Prop
  | .close _ => False
  | .expire _ clock => ∀ node ∈ s.timer.heap[0]?, ¬ node.Expired (clock 0)
  | _ => True

instance (s : Server) (e : Event) : Decidable (s.ClosesNone e) :=
  match e with
  | .accept .. | .extend .. | .heartbeat .. | .shutDown _ => inferInstanceAs (Decidable True)
  | .close _ => inferInstanceAs (Decidable False)
  | .expire _ clock =>
    inferInstanceAs (Decidable (∀ node ∈ s.timer.heap[0]?, ¬ node.Expired (clock 0)))

section NotDue

variable {clock : ℕ → ℤ} {rounds k : ℕ}

/-- Where the timer in front is not due, none is taken. -/
theorem firedLoop_not_due {timer : TimerManager Callback}
    (h : ∀ node ∈ timer.heap[0]?, ¬ node.Expired (clock k)) :
    TimerManager.firedLoop clock rounds k timer = [] := by
  cases rounds with
  | zero => rfl
  | succ rounds =>
    unfold TimerManager.firedLoop
    cases hfront : timer.heap[0]? with
    | none => rfl
    | some node => exact if_neg (h node hfront)

@[inherit_doc firedLoop_not_due]
theorem expireLoop_not_due {outside : ℕ → Option ℤ}
    (h : ∀ node ∈ s.timer.heap[0]?, ¬ node.Expired (clock k)) :
    expireLoop outside clock rounds k s = .ok s := by
  cases rounds with
  | zero => rfl
  | succ rounds =>
    unfold expireLoop
    cases hfront : s.timer.heap[0]? with
    | none => rfl
    | some node => exact if_neg (h node hfront)

end NotDue

theorem ClosesNone.keepsPaired {e : Event} (h : s.ClosesNone e) : s.KeepsPaired e := by
  cases e with
  | close fd => exact h
  | expire outside clock =>
    intro node hnode
    rw [TimerManager.fired, firedLoop_not_due h] at hnode
    exact absurd hnode List.not_mem_nil
  | accept | extend | heartbeat | shutDown => trivial

/-- **An event that closes no connection** uses none that was erased. -/
theorem ClosesNone.usedErased {e : Event} (h : s.ClosesNone e) (hstep : s.step e = some t) :
    t.usedErased = s.usedErased := by
  obtain ⟨hpossible, hrun⟩ := step_eq_some hstep
  cases e with
  | close fd => exact absurd h id
  | accept fd addr now memory outside =>
    obtain ⟨timer, -, rfl⟩ := withTimer_ok hrun
    rfl
  | extend fd now =>
    change (if fd ∈ s.users then s.extentTime fd now else _) = _ at hrun
    rw [if_pos (show fd ∈ s.users from hpossible)] at hrun
    obtain ⟨timer, -, rfl⟩ := withTimer_ok hrun
    rfl
  | heartbeat fd now outside =>
    obtain ⟨c, hc⟩ := Option.isSome_iff_exists.mp (AList.lookup_isSome.mpr hpossible)
    change (match s.users.lookup fd with | none => _ | some client => _) = _ at hrun
    rw [hc] at hrun
    rcases cacheServerKeepAlive_ok hrun with ⟨-, timer, -, rfl⟩ | ⟨-, timer, text, -, rfl⟩ <;> rfl
  | shutDown addr =>
    obtain ⟨text, rfl⟩ := delete_notify_ok hrun
    rfl
  | expire outside clock =>
    obtain rfl := Except.ok.inj ((expireLoop_not_due h).symm.trans hrun)
    rfl

/-- **Timers and connections** in every run in which no connection is closed and
no timer expires: there is a timer for each connection and no other, so the
assertion of `update` holds; a timer that closes a connection closes one that is
there; and no connection has been used that had been erased. -/
theorem timers_paired {es : List Event} (hg : Runs.Guarded step ClosesNone start es)
    (h : Runs.exec step start es = some s) :
    (∀ id, id ∈ s.timer.ref ↔ id ∈ s.users)
      ∧ (∀ fd ∈ s.users, ∀ now timeout, (s.timer.update now fd timeout).isSome)
      ∧ (∀ id fd serial, (id, Callback.closeConnection fd serial) ∈ s.timer.timers →
        ∃ c, s.users.lookup fd = some c ∧ c.serial = serial)
      ∧ s.usedErased = false := by
  obtain ⟨hpaired, hused⟩ : s.Paired ∧ s.usedErased = false :=
    Runs.exec_invariant (fun s => s.Paired ∧ s.usedErased = false)
      (fun hi hp he => ⟨hi.1.step hp.keepsPaired he, (hp.usedErased he).trans hi.2⟩)
      ⟨paired_start, rfl⟩ hg h
  refine ⟨hpaired.ids, fun fd hfd now timeout => ?_, fun id fd serial hmem => ?_, hused⟩
  · obtain ⟨timer, hupdate, -⟩ := hpaired.update hfd now timeout
    rw [hupdate]
    rfl
  · obtain ⟨rfl, c, hc, hserial⟩ := hpaired.alive hmem
    exact ⟨c, hc, hserial⟩

/-- A connection of the cache server `10.0.0.1:7001` is accepted. -/
def acceptA : Event := .accept 5 Registry.serverA 0 (⟨0, 0⟩, ⟨0, 0⟩, false) (some 0)

/-- Two connections are accepted. The one sends a heartbeat, the other is read
from; the one is shut down, and no timer expires. -/
def openRun : List Event :=
  [acceptA, .heartbeat 5 1000000 (some 0),
    .accept 6 Registry.serverB 500000000 (⟨0, 0⟩, ⟨0, 0⟩, false) (some 0),
    .extend 6 1000000000, .shutDown Registry.serverA,
    .expire (fun _ => none) (fun _ => 2000000000)]

/-- In this run the timers and the connections stay paired. -/
theorem timers_paired_openRun :
    ∃ s, Runs.exec step start openRun = some s ∧ (5 ∈ s.users ∧ 6 ∈ s.users)
      ∧ (∀ id, id ∈ s.timer.ref ↔ id ∈ s.users) ∧ s.usedErased = false := by
  have hrun : (Runs.exec step start openRun).isSome
      ∧ ∀ s ∈ Runs.exec step start openRun, (5 : ℤ) ∈ s.users ∧ (6 : ℤ) ∈ s.users := by
    decide +kernel
  obtain ⟨s, hs⟩ := Option.isSome_iff_exists.mp hrun.1
  obtain ⟨hids, -, -, hused⟩ := timers_paired (by decide +kernel) hs
  exact ⟨s, hs, hrun.2 s hs, hids, hused⟩

/-- **A connection that is closed keeps its timer**, and the timer then
refers to a connection that is no more. -/
theorem closed_connection_keeps_timer :
    ∃ s, Runs.exec step start [acceptA, .close 5] = some s
      ∧ 5 ∈ s.timer.ref ∧ 5 ∉ s.users ∧ s.usedErased = true
      ∧ failure? (s.handle (.expire (fun _ => some 0) (fun _ => 3000000000)))
        = some .dangling := by
  refine ⟨_, rfl, by decide +kernel, by decide +kernel, by decide +kernel, by decide +kernel⟩

/-- A cache server connects and sends a heartbeat, and then no more. -/
def lostRun : List Event :=
  [acceptA, .heartbeat 5 1000000 (some 0), .expire (fun _ => some 0) (fun _ => 3000000000)]

/-- **A lost cache server keeps its connection**, which has no timer: the next
read from it fails an assertion. -/
theorem lost_cache_server_keeps_connection :
    ∃ s, Runs.exec step start lostRun = some s
      ∧ 5 ∉ s.timer.ref ∧ 5 ∈ s.users
      ∧ failure? (s.handle (.extend 5 3000000000)) = some .assertion := by
  have hrun : (Runs.exec step start lostRun).isSome
      ∧ ∀ s ∈ Runs.exec step start lostRun, (5 : ℤ) ∉ s.timer.ref ∧ (5 : ℤ) ∈ s.users
        ∧ failure? (s.handle (.extend 5 3000000000)) = some .assertion := by
    decide +kernel
  obtain ⟨s, hs⟩ := Option.isSome_iff_exists.mp hrun.1
  exact ⟨s, hs, hrun.2 s hs⟩

/-! ## The ring and the registry

The ring is rebuilt in a notification. A registration notifies, and so does the
loss of a cache server. A connection that is closed deletes the machine of its
address from the registry and does not notify, so the ring is right afterwards
only if there was no such machine. -/

/-- **The ring follows the registry**: its machines are the registered
servers, and its points those `RefreshIpList` makes for them. -/
def RingFollows (s : Server) : Prop :=
  s.hash.allPhysicalMachine = s.registry.ipPortLs
    ∧ s.hash.mp_itoIpPort = (s.hash.refreshIpList s.registry.ipPortLs).mp_itoIpPort

theorem ringFollows_notified (s : Server) (text : Bytes) : (s.notified text).RingFollows := by
  unfold RingFollows notified
  dsimp only
  rw [NodeConHash.refreshIpList_eq, NodeConHash.refreshIpList_eq]
  exact ⟨rfl, rfl⟩

theorem RingFollows.congr (h : s.RingFollows) (hhash : t.hash = s.hash)
    (hservers : t.registry.ipPortLs = s.registry.ipPortLs) : t.RingFollows := by
  unfold RingFollows
  rw [hhash, hservers]
  exact h

/-- A connection that is not of a registered server. -/
def NotCache (s : Server) (fd : ℤ) : Prop :=
  ∀ c ∈ s.users.lookup fd, Registry.ipPortStr c.conn.addr ∉ s.registry.ipPortLs

instance (s : Server) (fd : ℤ) : Decidable (s.NotCache fd) :=
  match h : s.users.lookup fd with
  | none => isTrue (fun c hc => absurd (h.symm.trans hc) (by simp))
  | some c => decidable_of_iff (Registry.ipPortStr c.conn.addr ∉ s.registry.ipPortLs)
      ⟨fun hc c' hc' => Option.some.inj (h.symm.trans hc') ▸ hc, fun hc => hc c h⟩

/-- **Closing a connection that is not of a registered server** leaves the
servers as they are. -/
theorem NotCache.closeConnection {fd : ℤ} {serial : ℕ} (h : s.NotCache fd)
    (hrun : s.closeConnection fd serial = .ok t) :
    t.hash = s.hash ∧ t.registry.ipPortLs = s.registry.ipPortLs := by
  obtain ⟨client, hclient, -, rfl⟩ := closeConnection_ok hrun
  obtain ⟨usedErased, hused⟩ := useObject_eq fd serial { s with
    registry := s.registry.deleteOneMachine client.conn.addr
    users := s.users.erase client.conn.fd }
  rw [hused]
  exact ⟨rfl, List.erase_of_not_mem (h client hclient)⟩

/-- What a callback leaves: the timers, and of the connections and the servers
no others. -/
structure Shrinks (s t : Server) : Prop where
  timer : t.timer = s.timer
  users : ∀ {fd c}, t.users.lookup fd = some c →
    ∃ c', s.users.lookup fd = some c' ∧ c'.conn.addr = c.conn.addr
  servers : t.registry.ipPortLs ⊆ s.registry.ipPortLs

/-- **A callback only takes away.** -/
theorem shrinks_callback {cb : Callback} (h : s.callback cb = .ok t) : Shrinks s t := by
  cases cb with
  | closeConnection fd serial =>
    obtain ⟨client, hclient, -, rfl⟩ := closeConnection_ok h
    obtain ⟨usedErased, hused⟩ := useObject_eq fd serial { s with
      registry := s.registry.deleteOneMachine client.conn.addr
      users := s.users.erase client.conn.fd }
    rw [hused]
    refine ⟨rfl, fun {fd' c} hc => ⟨c, ?_, rfl⟩, List.erase_subset⟩
    by_cases hfd : fd' = client.conn.fd
    · subst hfd
      exact absurd ((AList.lookup_erase _ s.users).symm.trans hc) (by simp)
    · exact (AList.lookup_erase_ne hfd).symm.trans hc
  | someCacheServerLost addr =>
    obtain ⟨text, rfl⟩ := delete_notify_ok h
    refine ⟨rfl, fun {fd c} hc => ?_, List.erase_subset⟩
    obtain ⟨c', hc', hident⟩ := (sameUsers_notified
      { s with registry := s.registry.deleteOneMachine addr } text).exists_lookup hc
    exact ⟨c', hc', congrArg (fun x => x.2.1) hident⟩

theorem NotCache.shrinks {fd : ℤ} (h : s.NotCache fd) (hs : Shrinks s t) : t.NotCache fd := by
  intro c hc hmem
  obtain ⟨c', hc', haddr⟩ := hs.users hc
  exact h c' hc' (haddr ▸ hs.servers hmem)

/-- The timers of this node close no connection of a registered server. -/
def ClosesNoCache (s : Server) : Callback → Prop
  | .closeConnection fd _ => s.NotCache fd
  | .someCacheServerLost _ => True

instance (s : Server) (cb : Callback) : Decidable (s.ClosesNoCache cb) :=
  match cb with
  | .closeConnection fd _ => inferInstanceAs (Decidable (s.NotCache fd))
  | .someCacheServerLost _ => inferInstanceAs (Decidable True)

/-- **A callback that closes no connection of a registered server** keeps the
ring with the registry. -/
theorem RingFollows.callback (h : s.RingFollows) {cb : Callback} (hcb : s.ClosesNoCache cb)
    (hrun : s.callback cb = .ok t) : t.RingFollows := by
  cases cb with
  | closeConnection fd serial =>
    obtain ⟨hhash, hservers⟩ := NotCache.closeConnection hcb hrun
    exact h.congr hhash hservers
  | someCacheServerLost addr =>
    obtain ⟨text, rfl⟩ := delete_notify_ok hrun
    exact ringFollows_notified _ text

/-- A callback that closes no connection of a registered server still closes
none when another has been run. -/
theorem ClosesNoCache.shrinks {cb : Callback} (h : s.ClosesNoCache cb) (hs : Shrinks s t) :
    t.ClosesNoCache cb := by
  cases cb with
  | closeConnection fd serial => exact NotCache.shrinks h hs
  | someCacheServerLost addr => trivial

/-- **Timers expire** that close no connection of a registered server. -/
theorem RingFollows.expireLoop (h : s.RingFollows) {outside : ℕ → Option ℤ} {clock : ℕ → ℤ}
    {rounds k : ℕ}
    (hfired : ∀ node ∈ TimerManager.firedLoop clock rounds k s.timer, s.ClosesNoCache node.cb)
    (hrun : Server.expireLoop outside clock rounds k s = .ok t) : t.RingFollows := by
  induction rounds generalizing s k with
  | zero =>
    obtain rfl := Except.ok.inj hrun
    exact h
  | succ rounds ih =>
    rcases expireLoop_succ outside clock rounds k s with hends | ⟨node, -, hlist, hround⟩
    · obtain rfl := Except.ok.inj (hends.symm.trans hrun)
      exact h
    · rw [hlist] at hfired
      obtain ⟨u, hcall, hrest⟩ := round_ok (hround.symm.trans hrun)
      have hshrinks := shrinks_callback hcall
      have hu : u.RingFollows := h.callback (hfired node List.mem_cons_self) hcall
      refine ih (s := { u with timer := u.timer.pop }) hu (fun node' hnode' => ?_) hrest
      have hmem : node' ∈ TimerManager.firedLoop clock rounds (k + 1) s.timer.pop := by
        rw [← hshrinks.timer]
        exact hnode'
      have hclosed : u.ClosesNoCache node'.cb :=
        ClosesNoCache.shrinks (hfired node' (List.mem_cons_of_mem _ hmem)) hshrinks
      exact hclosed

/-- **What keeps the ring with the registry**: no connection of a registered
server is closed. -/
def KeepsRing (s : Server) : Event → Prop
  | .close fd => s.NotCache fd
  | .expire _ clock => ∀ node ∈ s.timer.fired clock, s.ClosesNoCache node.cb
  | _ => True

instance (s : Server) (e : Event) : Decidable (s.KeepsRing e) :=
  match e with
  | .accept .. | .extend .. | .heartbeat .. | .shutDown _ => inferInstanceAs (Decidable True)
  | .close fd => inferInstanceAs (Decidable (s.NotCache fd))
  | .expire _ clock =>
    inferInstanceAs (Decidable (∀ node ∈ s.timer.fired clock, s.ClosesNoCache node.cb))

/-- **One event keeps the ring with the registry.** -/
theorem RingFollows.step (h : s.RingFollows) {e : Event} (hkeeps : s.KeepsRing e)
    (hstep : s.step e = some t) : t.RingFollows := by
  obtain ⟨hpossible, hrun⟩ := step_eq_some hstep
  cases e with
  | accept fd addr now memory outside =>
    obtain ⟨timer, -, rfl⟩ := withTimer_ok hrun
    exact h.congr rfl rfl
  | close fd =>
    obtain ⟨c, hc⟩ := Option.isSome_iff_exists.mp (AList.lookup_isSome.mpr hpossible)
    change (match s.users.lookup fd with | none => _ | some client => _) = _ at hrun
    rw [hc] at hrun
    obtain ⟨hhash, hservers⟩ := NotCache.closeConnection hkeeps hrun
    exact h.congr hhash hservers
  | extend fd now =>
    change (if fd ∈ s.users then s.extentTime fd now else _) = _ at hrun
    rw [if_pos (show fd ∈ s.users from hpossible)] at hrun
    obtain ⟨timer, -, rfl⟩ := withTimer_ok hrun
    exact h.congr rfl rfl
  | heartbeat fd now outside =>
    obtain ⟨c, hc⟩ := Option.isSome_iff_exists.mp (AList.lookup_isSome.mpr hpossible)
    change (match s.users.lookup fd with | none => _ | some client => _) = _ at hrun
    rw [hc] at hrun
    rcases cacheServerKeepAlive_ok hrun with ⟨-, timer, -, rfl⟩ | ⟨-, timer, text, -, rfl⟩
    · exact h.congr rfl rfl
    · exact ringFollows_notified _ text
  | shutDown addr =>
    obtain ⟨text, rfl⟩ := delete_notify_ok hrun
    exact ringFollows_notified _ text
  | expire outside clock => exact h.expireLoop hkeeps hrun

/-- **The ring follows the registry** in every run in which no connection of a
registered server is closed. -/
theorem ring_follows_registry {es : List Event} (hg : Runs.Guarded step KeepsRing start es)
    (h : Runs.exec step start es = some s) :
    s.hash.allPhysicalMachine = s.registry.ipPortLs
      ∧ s.hash.mp_itoIpPort = (s.hash.refreshIpList s.registry.ipPortLs).mp_itoIpPort :=
  Runs.exec_invariant RingFollows (fun hi hp he => hi.step hp he) ⟨rfl, rfl⟩ hg h

/-- A cache server registers, is lost, and closes its connection. -/
def ringRun : List Event := lostRun ++ [.close 5]

/-- In this run the ring follows the registry. -/
theorem ring_follows_registry_ringRun :
    ∃ s, Runs.exec step start ringRun = some s
      ∧ s.hash.allPhysicalMachine = s.registry.ipPortLs := by
  have hrun : (Runs.exec step start ringRun).isSome := by decide +kernel
  obtain ⟨s, hs⟩ := Option.isSome_iff_exists.mp hrun
  exact ⟨s, hs, (ring_follows_registry (by decide +kernel) hs).1⟩

/-- **A registered server closes its connection and stays on the ring.** -/
theorem closed_cache_stays_on_ring :
    ∃ s, Runs.exec step start [acceptA, .heartbeat 5 1000000 (some 0), .close 5] = some s
      ∧ s.registry.ipPortLs = [] ∧ s.hash.allPhysicalMachine = [str "10.0.0.1:7001"] := by
  have hrun : (Runs.exec step start [acceptA, .heartbeat 5 1000000 (some 0), .close 5]).isSome
      ∧ ∀ s ∈ Runs.exec step start [acceptA, .heartbeat 5 1000000 (some 0), .close 5],
        s.registry.ipPortLs = [] ∧ s.hash.allPhysicalMachine = [str "10.0.0.1:7001"] := by
    decide +kernel
  obtain ⟨s, hs⟩ := Option.isSome_iff_exists.mp hrun.1
  exact ⟨s, hs, hrun.2 s hs⟩

end Server

end MiniDcs
