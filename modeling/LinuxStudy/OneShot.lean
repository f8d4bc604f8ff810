import Mathlib.Data.List.AList
import LinuxStudy.MiniManager
import LinuxStudy.MiniRequest

/-!
# Which connections are armed

Every connection is registered with `EPOLLONESHOT`: an event on it disarms
it, hands it to a worker, and it is armed again by `modFd` only. A read goes
on to `onProcess_`, which arms the connection for writing if `handleConnec`
returns `needSend`, and for reading otherwise. A write arms it for writing if
`writev` would block, goes on to `onProcess_` if everything was sent, and
otherwise does nothing: the call that closed the connection here is commented
out.

A connection is here with what a worker is about to do with it (`Phase`) and
with what it is armed for. The manager may send on any connection at any
time, from the worker of another connection or from a timer, so
`connnectionSend` is an event of its own, between any two others. It sets
`needSend`, which only `handleConnec` reads, and which `handleConnec` sets to
`false` when it begins; so what is sent on a connection outside the time in
which its own request is handled, or in which it waits to write, arms
nothing.

`no_reply_stranded` says that nothing else strands a message: where every
`writeBuffer` sends all there is or ends with `EAGAIN`, `iov_[1]` happens to
be empty, and messages come at such times only, a connection that no worker
has is armed, and armed for writing while it has something to send.

The timers are left out here. A connection may be closed at any time, and an
event on one that there is no more cannot happen.
-/

namespace MiniDcs

open Socket

namespace OneShot

/-! ## The connections -/

/-- What a connection is armed for. -/
inductive Interest
  | epollin
  | epollout
  deriving DecidableEq

/-- What a worker is about to do with a connection. -/
inductive Phase
  /-- No worker has it. -/
  | idle
  /-- `onRead_`. -/
  | reading
  /-- `onWrite_`. -/
  | writing
  /-- `onProcess_`. -/
  | processing
  /-- To return from `handleConnec`, where `parse` returns this. -/
  | handling (parsed : Bool)
  /-- `modFd`. -/
  | rearming (interest : Interest)
  deriving DecidableEq

/-- An open connection, and what it is armed for if it is armed. -/
structure Session where
  conn : Connection
  phase : Phase
  armed : Option Interest

/-- What may happen to a connection. -/
inductive Action
  /-- What it is armed for is reported. -/
  | ready
  /-- `readBuffer`, by the results of `readv`, and what `onRead_` makes of
  it. -/
  | read (results : List ReadResult)
  /-- `writeBuffer`, by the results of `writev`, and what `onWrite_` makes of
  it. -/
  | write (results : List WriteResult)
  /-- `handleConnec` begins: up to the call of the handler. -/
  | handleConnec
  /-- `handleConnec` returns. -/
  | handled
  /-- `modFd`. -/
  | modFd
  /-- The manager sends a message on it. -/
  | connnectionSend (msg : Bytes)
  /-- `closeConnection`. -/
  | close

namespace Session

/-- The part of `onWrite_` after `writeBuffer`. -/
def onWrite (x : Session) (w : Connection.Written) : Session :=
  if w.conn.writeBytes = 0 then { x with conn := w.conn, phase := .processing }
  else if w.len < 0 ∧ w.saveErrno = some .eagain then
    { x with conn := w.conn, phase := .rearming .epollout }
  else { x with conn := w.conn, phase := .idle }

/-- What `handleConnec` does before the handler of the request is called. It
is undefined where the parser throws. -/
def handleConnec (J : JsonLib) (x : Session) : Option Session :=
  let conn := { x.conn with needSend := false }
  if conn.readBuffer_.readableBytes ≤ 0 then
    some { x with conn := conn, phase := .rearming .epollin }
  else
    (J.requestParse conn.readBuffer_).map (fun r =>
      { x with conn := { conn with readBuffer_ := r.1 }, phase := .handling r.2.2 })

/-- What `onProcess_` arms the connection for when `handleConnec` returns. -/
def interest (x : Session) (parsed : Bool) : Interest :=
  if parsed && x.conn.needSend then .epollout else .epollin

/-- **One action**: what becomes of the connection, which may be that it is
closed. It is undefined where the action cannot happen, where an assertion
fails or something is thrown, and where the call has not returned. -/
def act (J : JsonLib) (isET : Bool) (x : Session) : Action → Option (Option Session)
  | .ready =>
    match x.armed with
    | none => none
    | some .epollin => some (some { x with phase := .reading, armed := none })
    | some .epollout => some (some { x with phase := .writing, armed := none })
  | .read results =>
    if x.phase = .reading then
      (readBuffer isET results x.conn.readBuffer_).map (fun r =>
        if r.2.1 ≤ 0 ∧ r.2.2.1 ≠ some .eagain then none
        else some { x with conn := { x.conn with readBuffer_ := r.1 }, phase := .processing })
    else none
  | .write results =>
    if x.phase = .writing then
      match x.conn.writeBuffer isET results with
      | .ok w => some (some (x.onWrite w))
      | .error _ => none
    else none
  | .handleConnec => if x.phase = .processing then (x.handleConnec J).map some else none
  | .handled =>
    match x.phase with
    | .handling parsed => some (some { x with phase := .rearming (x.interest parsed) })
    | _ => none
  | .modFd =>
    match x.phase with
    | .rearming interest => some (some { x with phase := .idle, armed := some interest })
    | _ => none
  | .connnectionSend msg =>
    let conn := x.conn.connnectionSend msg
    if conn.Fits then some (some { x with conn := conn }) else none
  | .close => some none

end Session

/-- `users_`, with what the workers do and what is armed. -/
abbrev Sessions := AList (fun _ : ℤ => Session)

/-- What may happen. -/
inductive Event
  /-- `addConnection`, with what the memory of the new object held. -/
  | accept (fd : ℤ) (addr : SockAddr) (memory : Iovec × Iovec × Bool)
  /-- An action on a connection. -/
  | on (fd : ℤ) (action : Action)

/-- `addConnection`. -/
def addConnection (fd : ℤ) (addr : SockAddr) (memory : Iovec × Iovec × Bool) : Session where
  conn := (Connection.new memory.1 memory.2.1 memory.2.2).initConnection fd addr
  phase := .idle
  armed := some .epollin

/-- One event. The kernel gives a new connection a descriptor that is not in
use. -/
def step (J : JsonLib) (isET : Bool) (s : Sessions) : Event → Option Sessions
  | .accept fd addr memory =>
    if 0 < fd ∧ fd ∉ s then some (s.insert fd (addConnection fd addr memory)) else none
  | .on fd action =>
    (s.lookup fd).bind (fun x => (x.act J isET action).map (fun result =>
      match result with
      | some y => s.insert fd y
      | none => s.erase fd))

/-- **A connection that no worker has is armed**, and armed for writing if it
has something to send. -/
def Session.Waits (x : Session) : Prop :=
  x.phase = .idle →
    x.armed.isSome ∧ (x.conn.unsent ≠ [] → x.armed = some .epollout)

instance (x : Session) : Decidable x.Waits := inferInstanceAs (Decidable (_ → _))

/-- No message is stranded. -/
def NoneStranded (s : Sessions) : Prop := ∀ fd, ∀ x ∈ s.lookup fd, x.Waits

/-! ## What must not happen

A message is stranded if it is in the write buffer of a connection that no worker
has and that is not armed for writing: then nothing will ever send it but the next
message. The write may end before all is sent, because it would block, or because
of an error, of which an interrupted call is one. In the first case the connection
is armed again, and in the second it is not. -/

/-- **`writeBuffer` sends all there is, or ends with `EAGAIN`**, by the
results of `writev` and how much there is to send; `writeBytes` counts modulo
`2^32`. -/
def Delivers (isET : Bool) : List WriteResult → ℕ → Prop
  | [], _ => True
  | .error errno :: _, left => Int.bmod left (2 ^ 32) = 0 ∨ errno = .eagain
  | .accepts n :: rest, left =>
    if min n left = 0 then Int.bmod left (2 ^ 32) = 0
    else if isET = true ∨ 10240 < Int.bmod (left - min n left : ℕ) (2 ^ 32) then
      Delivers isET rest (left - min n left)
    else Int.bmod (left - min n left : ℕ) (2 ^ 32) = 0

instance decidableDelivers (isET : Bool) :
    (results : List WriteResult) → (left : ℕ) → Decidable (Delivers isET results left)
  | [], _ => isTrue trivial
  | .error _ :: _, _ => inferInstanceAs (Decidable (_ ∨ _))
  | .accepts n :: rest, left =>
    have : Decidable (Delivers isET rest (left - min n left)) := decidableDelivers isET rest _
    inferInstanceAs (Decidable (if min n left = 0 then Int.bmod left (2 ^ 32) = 0
      else if isET = true ∨ 10240 < Int.bmod (left - min n left : ℕ) (2 ^ 32) then
        Delivers isET rest (left - min n left)
      else Int.bmod (left - min n left : ℕ) (2 ^ 32) = 0))

/-- **The condition on an action.** A write sends all there is or ends with
`EAGAIN`. A message is sent on a connection that waits to write, or that a
worker has and has not decided to arm for reading. Where nothing was read,
nothing is left to send; and where something is left to send when
`handleConnec` returns, a message has been sent since it began, and the
machine type was known. -/
def Session.Meets (isET : Bool) (x : Session) : Action → Prop
  | .write results => Delivers isET results x.conn.unsent.length
  | .connnectionSend _ =>
    (x.phase = .idle → x.armed = some .epollout) ∧ x.phase ≠ .rearming .epollin
  | .handleConnec => x.conn.readBuffer_.readableBytes ≤ 0 → x.conn.unsent = []
  | .handled => x.conn.unsent ≠ [] → x.phase = .handling true ∧ x.conn.needSend = true
  | _ => True

instance (isET : Bool) (x : Session) (a : Action) : Decidable (x.Meets isET a) :=
  match a with
  | .ready => inferInstanceAs (Decidable True)
  | .read _ => inferInstanceAs (Decidable True)
  | .write _ => inferInstanceAs (Decidable (Delivers _ _ _))
  | .handleConnec => inferInstanceAs (Decidable (_ → _))
  | .handled => inferInstanceAs (Decidable (_ → _ ∧ _))
  | .modFd => inferInstanceAs (Decidable True)
  | .connnectionSend _ => inferInstanceAs (Decidable ((_ → _) ∧ _))
  | .close => inferInstanceAs (Decidable True)

/-- **The condition on an event.** The memory a new connection is built in
holds a `0` where the length of `iov_[1]` stands. -/
def Meets (isET : Bool) (s : Sessions) : Event → Prop
  | .accept _ _ memory => memory.2.1.len = 0
  | .on fd action => ∀ x ∈ s.lookup fd, x.Meets isET action

instance (isET : Bool) (s : Sessions) (e : Event) : Decidable (Meets isET s e) :=
  match e with
  | .accept _ _ memory => inferInstanceAs (Decidable (memory.2.1.len = 0))
  | .on fd action => inferInstanceAs (Decidable (∀ x ∈ s.lookup fd, x.Meets isET action))

/-! ## What each action preserves

One invariant covers a connection in every phase of its worker. A connection that
is armed for writing, or has something to send, has been sent on before, so that
both records of what is not sent agree and are not what the memory held. -/

variable {J : JsonLib} {isET : Bool}

/-- **What `onWrite_` goes on with.** Where the two records of what is not
sent agree, the results of `writev` decide it. -/
theorem writeBuffer_delivers {c : Connection} (hd : c.Describes) (hf : c.Fits)
    (h₁ : c.iov₁.len = 0) {results : List WriteResult} {w : Connection.Written}
    (hw : c.writeBuffer isET results = .ok w) (hdelivers : Delivers isET results c.unsent.length) :
    w.conn.writeBytes = 0 ∨ w.len < 0 ∧ w.saveErrno = some .eagain := by
  induction results generalizing c w with
  | nil => exact absurd hw (by simp [Connection.writeBuffer])
  | cons r rest ih =>
    cases r with
    | error errno =>
      obtain rfl := Except.ok.inj hw
      rcases hdelivers with hzero | rfl
      · exact Or.inl ((hd.writeBytes_eq h₁).trans hzero)
      · exact Or.inr ⟨neg_one_lt_zero, rfl⟩
    | accepts n =>
      rw [Delivers, ← hd.len_eq] at hdelivers
      by_cases hzero : min n c.iov₀.len = 0
      · rw [Connection.writeBuffer, if_pos hzero] at hw
        obtain rfl := Except.ok.inj hw
        rw [if_pos hzero, hd.len_eq] at hdelivers
        exact Or.inl ((hd.writeBytes_eq h₁).trans hdelivers)
      · obtain ⟨c', -, hd', hf', h₁', hunsent, -, hround⟩ :=
          hd.writeBuffer_accepts hf h₁ (Nat.pos_of_ne_zero hzero) isET
        have hleft : c.iov₀.len - min n c.iov₀.len = c'.unsent.length := by
          rw [hunsent, List.length_drop, hd.len_eq]
        rw [if_neg hzero, hleft, ← hd'.writeBytes_eq h₁'] at hdelivers
        rw [hround] at hw
        split at hw
        · next hgoes =>
          rw [if_pos hgoes] at hdelivers
          cases hrest : c'.writeBuffer isET rest with
          | error stop =>
            rw [hrest] at hw
            exact absurd hw (by simp [Except.map])
          | ok w' =>
            rw [hrest] at hw
            obtain rfl := Except.ok.inj hw
            have hsent := ih hd' hf' h₁' hrest hdelivers
            exact hsent
        · next hstops =>
          rw [if_neg hstops] at hdelivers
          obtain rfl := Except.ok.inj hw
          exact Or.inl hdelivers

/-- The connection waits to write, or will if its handler returns now. -/
def Session.ToWrite (x : Session) : Prop :=
  x.armed = some .epollout ∨ x.phase = .writing ∨ x.phase = .rearming .epollout
    ∨ (∃ parsed, x.phase = .handling parsed) ∧ x.conn.needSend = true

/-- **What holds of every connection**: one that waits to write, or has
something to send, has been sent on, so that the two records of what is not
sent agree. -/
structure Session.Sound (x : Session) : Prop where
  fits : x.conn.Fits
  iov₁ : x.conn.iov₁.len = 0
  describes : x.ToWrite ∨ x.conn.unsent ≠ [] → x.conn.Describes
  waits : x.Waits
  rearming : x.phase = .rearming .epollin → x.conn.unsent = []

namespace Session

/-- A new connection. -/
theorem sound_addConnection (fd : ℤ) (addr : SockAddr) {memory : Iovec × Iovec × Bool}
    (h₁ : memory.2.1.len = 0) : (addConnection fd addr memory).Sound := by
  have hnothing : (addConnection fd addr memory).conn.unsent = [] :=
    Connection.unsent_initConnection _ fd addr
  refine ⟨?_, h₁, ?_, fun _ => ⟨rfl, fun hunsent => absurd hnothing hunsent⟩, fun _ => hnothing⟩
  · unfold Connection.Fits addConnection Connection.initConnection Connection.new
    simp only [Buffer.initPtr, Buffer.new, List.length_replicate]
    omega
  · rintro (hwrite | hunsent)
    · exact absurd hwrite (by simp [ToWrite, addConnection])
    · exact absurd hnothing hunsent

variable {x y : Session}

theorem Sound.of_busy (hf : x.conn.Fits) (h₁ : x.conn.iov₁.len = 0)
    (hd : x.ToWrite ∨ x.conn.unsent ≠ [] → x.conn.Describes) (hbusy : x.phase ≠ .idle)
    (hrearm : x.phase ≠ .rearming .epollin) : x.Sound :=
  ⟨hf, h₁, hd, fun hidle => absurd hidle hbusy, fun h => absurd h hrearm⟩

/-- The two records agree where a connection is armed for writing or has
something to send. -/
theorem Sound.describes_of_armed (hx : x.Sound)
    (h : x.armed = some .epollout ∨ x.conn.unsent ≠ []) : x.conn.Describes :=
  hx.describes (h.imp_left Or.inl)

/-- What it is armed for is reported. -/
theorem Sound.ready (hx : x.Sound) (h : x.act J isET .ready = some (some y)) : y.Sound := by
  unfold act at h
  dsimp only at h
  split at h
  · exact absurd h (by simp)
  · obtain rfl := Option.some.inj (Option.some.inj h)
    refine Sound.of_busy hx.fits hx.iov₁ (fun hy => hx.describes ?_) (by simp) (by simp)
    exact hy.imp_left (fun hwrite => absurd hwrite (by simp [ToWrite]))
  · next harmed =>
    obtain rfl := Option.some.inj (Option.some.inj h)
    exact Sound.of_busy hx.fits hx.iov₁ (fun _ => hx.describes (Or.inl (Or.inl harmed)))
      (by simp) (by simp)

/-- `onRead_`. -/
theorem Sound.read (hx : x.Sound) {results : List ReadResult}
    (h : x.act J isET (.read results) = some (some y)) : y.Sound := by
  unfold act at h
  dsimp only at h
  split at h
  · obtain ⟨r, -, hr⟩ := Option.map_eq_some_iff.mp h
    split at hr
    · exact absurd hr (by simp)
    · obtain rfl := Option.some.inj hr
      refine Sound.of_busy hx.fits hx.iov₁ (fun hy => hx.describes_of_armed ?_) (by simp) (by simp)
      exact hy.imp_left (by simp [ToWrite])
  · exact absurd h (by simp)

/-- **`onWrite_`**, where all is sent or `writev` would block. -/
theorem Sound.write (hx : x.Sound) {results : List WriteResult}
    (hmeets : x.Meets isET (.write results))
    (h : x.act J isET (.write results) = some (some y)) : y.Sound := by
  unfold act at h
  dsimp only at h
  split at h
  · next hphase =>
    have hd : x.conn.Describes := hx.describes (Or.inl (Or.inr (Or.inl hphase)))
    split at h
    · next w hw =>
      obtain rfl := Option.some.inj (Option.some.inj h)
      have hsends := (Connection.writeBuffer_spec hd hx.fits hx.iov₁ results).2 w hw
      have h₁ : w.conn.iov₁.len = 0 := by
        rw [hsends.frame]
        exact hx.iov₁
      unfold onWrite
      split
      · exact Sound.of_busy hsends.fits h₁ (fun _ => hsends.describes) (by simp) (by simp)
      · next hleft =>
        have heagain :=
          (writeBuffer_delivers hd hx.fits hx.iov₁ hw hmeets).resolve_left hleft
        rw [if_pos heagain]
        exact Sound.of_busy hsends.fits h₁ (fun _ => hsends.describes) (by simp) (by simp)
    · exact absurd h (by simp)
  · exact absurd h (by simp)

/-- **`handleConnec` begins**, where nothing is left to send or something was
read. -/
theorem Sound.handleConnec (hx : x.Sound) (hmeets : x.Meets isET .handleConnec)
    (h : x.act J isET .handleConnec = some (some y)) : y.Sound := by
  unfold act at h
  dsimp only at h
  split at h
  · obtain ⟨z, hz, hy⟩ := Option.map_eq_some_iff.mp h
    obtain rfl := Option.some.inj hy
    unfold Session.handleConnec at hz
    dsimp only at hz
    split at hz
    · next hempty =>
      obtain rfl := Option.some.inj hz
      have hnothing : x.conn.unsent = [] := hmeets hempty
      refine ⟨hx.fits, hx.iov₁, fun hy => hx.describes_of_armed ?_, fun hidle => ?_,
        fun _ => hnothing⟩
      · exact hy.imp_left (by simp [ToWrite])
      · exact absurd hidle (by simp)
    · obtain ⟨r, -, rfl⟩ := Option.map_eq_some_iff.mp hz
      refine Sound.of_busy hx.fits hx.iov₁ (fun hy => hx.describes_of_armed ?_) (by simp) (by simp)
      exact hy.imp_left (by simp [ToWrite])
  · exact absurd h (by simp)

/-- **`handleConnec` returns**, where nothing is left to send or a message has
been sent since it began. -/
theorem Sound.handled (hx : x.Sound) (hmeets : x.Meets isET .handled)
    (h : x.act J isET .handled = some (some y)) : y.Sound := by
  unfold act at h
  dsimp only at h
  split at h
  · next parsed hphase =>
    obtain rfl := Option.some.inj (Option.some.inj h)
    by_cases hsend : parsed = true ∧ x.conn.needSend = true
    · have hinterest : x.interest parsed = .epollout := by simp [interest, hsend]
      have hd : x.conn.Describes :=
        hx.describes (Or.inl (Or.inr (Or.inr (Or.inr ⟨⟨parsed, hphase⟩, hsend.2⟩))))
      rw [hinterest]
      exact Sound.of_busy hx.fits hx.iov₁ (fun _ => hd) (by simp) (by simp)
    · have hinterest : x.interest parsed = .epollin := by
        simpa [interest] using hsend
      have hnothing : x.conn.unsent = [] := by
        by_contra hunsent
        obtain ⟨htrue, hneed⟩ := hmeets hunsent
        exact hsend ⟨Phase.handling.inj (hphase.symm.trans htrue), hneed⟩
      rw [hinterest]
      refine ⟨hx.fits, hx.iov₁, fun hy => hx.describes_of_armed ?_, fun hidle => ?_,
        fun _ => hnothing⟩
      · exact hy.imp_left (by simp [ToWrite])
      · exact absurd hidle (by simp)
  · exact absurd h (by simp)

/-- `modFd`. -/
theorem Sound.modFd (hx : x.Sound) (h : x.act J isET .modFd = some (some y)) : y.Sound := by
  unfold act at h
  dsimp only at h
  split at h
  · next i hphase =>
    obtain rfl := Option.some.inj (Option.some.inj h)
    refine ⟨hx.fits, hx.iov₁, fun hy => hx.describes ?_, fun _ => ⟨rfl, fun hunsent => ?_⟩,
      fun hrearm => ?_⟩
    · refine hy.imp_left (fun hwrite => ?_)
      have harmed : i = .epollout := by simpa [ToWrite] using hwrite
      exact Or.inr (Or.inr (Or.inl (harmed ▸ hphase)))
    · cases i with
      | epollin => exact absurd (hx.rearming hphase) hunsent
      | epollout => rfl
    · exact absurd hrearm (by simp)
  · exact absurd h (by simp)

/-- **A message is sent** on a connection that waits to write, or that a
worker has. -/
theorem Sound.connnectionSend (hx : x.Sound) {msg : Bytes}
    (hmeets : x.Meets isET (.connnectionSend msg))
    (h : x.act J isET (.connnectionSend msg) = some (some y)) : y.Sound := by
  unfold act at h
  dsimp only at h
  split at h
  · next hfits =>
    obtain rfl := Option.some.inj (Option.some.inj h)
    refine ⟨hfits, hx.iov₁, fun _ => Connection.describes_connnectionSend _ _, fun hidle => ?_,
      fun hrearm => absurd hrearm hmeets.2⟩
    have harmed := hmeets.1 hidle
    exact ⟨by rw [harmed]; rfl, fun _ => harmed⟩
  · exact absurd h (by simp)

/-- **Every action that meets the condition** keeps what holds of a
connection. -/
theorem Sound.act {a : Action} (hx : x.Sound) (hmeets : x.Meets isET a)
    (h : x.act J isET a = some (some y)) : y.Sound := by
  cases a with
  | ready => exact hx.ready h
  | read results => exact hx.read h
  | write results => exact hx.write hmeets h
  | handleConnec => exact hx.handleConnec hmeets h
  | handled => exact hx.handled hmeets h
  | modFd => exact hx.modFd h
  | connnectionSend msg => exact hx.connnectionSend hmeets h
  | close => exact absurd h (by simp [Session.act])

end Session

/-! ## Runs

Connections do not depend on each other, so a run of the server is one run for
each of them. The invariant is kept by each action that meets the condition. -/

/-- What holds of every connection holds after an event. -/
theorem step_sound {s t : Sessions} {e : Event} (hs : ∀ fd, ∀ x ∈ s.lookup fd, x.Sound)
    (hmeets : Meets isET s e) (h : step J isET s e = some t) :
    ∀ fd, ∀ x ∈ t.lookup fd, x.Sound := by
  have hinsert : ∀ {fd : ℤ} {y : Session}, y.Sound →
      ∀ fd', ∀ x ∈ (s.insert fd y).lookup fd', x.Sound := by
    intro fd y hy fd' x hx
    by_cases hfd : fd' = fd
    · subst hfd
      rw [AList.lookup_insert] at hx
      exact Option.mem_some_iff.mp hx ▸ hy
    · rw [AList.lookup_insert_ne hfd] at hx
      exact hs fd' x hx
  cases e with
  | accept fd addr memory =>
    unfold step at h
    dsimp only at h
    split at h
    · obtain rfl := Option.some.inj h
      exact hinsert (Session.sound_addConnection fd addr hmeets)
    · exact absurd h (by simp)
  | on fd action =>
    obtain ⟨x, hx, hact⟩ := Option.bind_eq_some_iff.mp h
    obtain ⟨result, hresult, rfl⟩ := Option.map_eq_some_iff.mp hact
    cases result with
    | some y => exact hinsert ((hs fd x hx).act (hmeets x hx) hresult)
    | none =>
      intro fd' x' hx'
      by_cases hfd : fd' = fd
      · subst hfd
        rw [AList.lookup_erase] at hx'
        exact absurd hx' (by simp)
      · rw [AList.lookup_erase_ne hfd] at hx'
        exact hs fd' x' hx'

/-- **No message is stranded** in a run all of whose events meet the
condition: a connection that no worker has is armed, and armed for writing if
it has something to send. -/
theorem no_reply_stranded (J : JsonLib) (isET : Bool) {events : List Event} {s : Sessions}
    (hmeets : Runs.Guarded (step J isET) (Meets isET) ∅ events)
    (h : Runs.exec (step J isET) ∅ events = some s) : NoneStranded s := by
  have hsound : ∀ fd, ∀ x ∈ s.lookup fd, x.Sound := by
    refine Runs.exec_invariant (P := Meets isET)
      (fun s : Sessions => ∀ fd, ∀ x ∈ s.lookup fd, x.Sound) step_sound ?_ hmeets h
    intro fd x hx
    rw [AList.lookup_empty] at hx
    exact absurd hx (by simp)
  exact fun fd x hx => (hsound fd x hx).waits

/-- A client asks for the distribution and is answered; the answer is
written, with these results. -/
def answered (results : List WriteResult) : List Event :=
  [.accept 5 Outgoing.peer (⟨0, 0⟩, ⟨0, 0⟩, false), .on 5 .ready,
    .on 5 (.read [.data (distributionText ++ [nul, nul]), .error .eagain]), .on 5 .handleConnec,
    .on 5 (.connnectionSend (dump distributionResponse [])), .on 5 .handled, .on 5 .modFd,
    .on 5 .ready, .on 5 (.write results)]

/-- The statement on such a run, edge-triggered: twenty bytes are taken, and
then the call would block. -/
theorem no_reply_stranded_answered :
    ∃ s, Runs.exec (step twoRequests true) ∅
        (answered [.accepts 20, .error .eagain] ++ [.on 5 .modFd]) = some s
      ∧ (∃ x ∈ s.lookup 5, x.phase = .idle ∧ x.conn.unsent.length = 31) ∧ NoneStranded s := by
  have hrun : (Runs.exec (step twoRequests true) ∅
        (answered [.accepts 20, .error .eagain] ++ [.on 5 .modFd])).isSome
      ∧ ∀ s ∈ Runs.exec (step twoRequests true) ∅
        (answered [.accepts 20, .error .eagain] ++ [.on 5 .modFd]),
        ∃ x ∈ s.lookup 5, x.phase = .idle ∧ x.conn.unsent.length = 31 := by
    decide +kernel
  obtain ⟨s, hs⟩ := Option.isSome_iff_exists.mp hrun.1
  exact ⟨s, hs, hrun.2 s hs, no_reply_stranded twoRequests true (by decide +kernel) hs⟩

/-- **An answer is stranded** where the write is interrupted: the connection
is not armed again. -/
theorem interrupted_write_stranded :
    ¬ ∀ (J : JsonLib) (isET : Bool) (events : List Event) (s : Sessions),
      Runs.exec (step J isET) ∅ events = some s → NoneStranded s := by
  intro h
  have hrun : (Runs.exec (step twoRequests true) ∅ (answered [.error .eintr])).isSome
      ∧ ∀ s ∈ Runs.exec (step twoRequests true) ∅ (answered [.error .eintr]),
        ∃ x ∈ s.lookup 5, ¬ x.Waits := by
    decide +kernel
  obtain ⟨s, hs⟩ := Option.isSome_iff_exists.mp hrun.1
  obtain ⟨x, hx, hwaits⟩ := hrun.2 s hs
  exact hwaits (h twoRequests true _ s hs 5 x hx)

end OneShot

end MiniDcs
