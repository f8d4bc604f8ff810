import LinuxStudy.Bytes
import Mathlib.Order.Basic
import Mathlib.Data.Nat.Find

/-!
# The client that writes

`keyValueWrite` sends keys, one after the other. The server of a key is the
one the list of servers gives for it; if it is not the server of the key
before, the connection is closed and another made by `ConnectServ`. If that
fails, the client closes the socket, fetches the list of servers again, and
tries the server the new list gives, until it succeeds: `while(nWrite<0)`.

In the body of that loop the result of the retry is given to a variable
declared there, `int nWrite`. The variable the loop tests is another one, and
keeps the result of the first attempt; so the loop is not entered at all, or
never left (`stopsOnSuccess_write_iff`). `keyValueRequest` has the same loop,
and assigns: it stops at the first success (`stopsOnSuccess_request`).

Both loops are `retryLoop`, with what the body does to the variables as a
parameter. What `ConnectServ` did is a `Connection`: the calls are numbered,
the first is the one before the loop, and the later ones are the retries.
-/

namespace MiniDcs

namespace Client

/-- `ipport_pair`. -/
structure IpPort where
  port : ℤ
  ip : Bytes
  deriving DecidableEq

/-- A socket, and what `connect` returned for it. -/
structure Attempt where
  cfd : ℕ
  n : ℤ

/-- The `do` loop of `ConnectServ`, from a number of tries on, by the attempts
still to come. `connect` returns `0` where it succeeds, so the `break` is not
taken. -/
def connectLoop : List Attempt → Attempt → Attempt
  | [], last => last
  | attempt :: rest, _ => if 0 < attempt.n then attempt else connectLoop rest attempt

/-- **`ConnectServ`**: the socket it leaves, and what it returns. There are up
to four more attempts if the first fails. -/
def connectServ (attempts : ℕ → Attempt) : Attempt :=
  if (attempts 0).n < 0 then
    connectLoop [attempts 1, attempts 2, attempts 3, attempts 4] (attempts 0)
  else attempts 0

/-- A call of `ConnectServ`: the server, the socket, and what it returned. -/
structure Connection where
  oneip : IpPort
  cfd : ℕ
  n : ℤ

/-- `ConnectServ` called for a server. -/
def Connection.to (oneip : IpPort) (attempts : ℕ → Attempt) : Connection :=
  ⟨oneip, (connectServ attempts).cfd, (connectServ attempts).n⟩

/-- The variables of a loop that connects: the one it tests, the socket and
the server. -/
structure Retry where
  n : ℤ
  cfd : ℕ
  oneip : IpPort

/-- The variables before the loop, from the first call. -/
def Retry.start (c : Connection) : Retry := ⟨c.n, c.cfd, c.oneip⟩

/-- The body of the loop in `keyValueWrite`. `int nWrite=ConnectServ(…)`
declares a variable that ends with the body. -/
def writeBody (s : Retry) (c : Connection) : Retry := { s with cfd := c.cfd, oneip := c.oneip }

/-- The body of the loop in `keyValueRequest`. -/
def requestBody (_ : Retry) (c : Connection) : Retry := ⟨c.n, c.cfd, c.oneip⟩

/-- A loop that connects, in at most so many rounds, after so many retries:
the number of retries made, and the variables. -/
def retryLoop (body : Retry → Connection → Retry) (calls : ℕ → Connection) :
    ℕ → ℕ → Retry → Option (ℕ × Retry)
  | 0, _, _ => none
  | rounds + 1, k, s =>
    if s.n < 0 then retryLoop body calls rounds (k + 1) (body s (calls (k + 1))) else some (k, s)

/-- What a client has that writes: its socket, the server of the key before,
and, for the keys it has written, on which socket. -/
structure Writer where
  kvwritecfd : ℕ
  oneipbf : IpPort
  written : List (ℕ × Bytes)

/-- `WriteData` of the key with what it returned, after the loop. The server is
forgotten if it failed. -/
def Writer.send (w : Writer) (key : Bytes) (nWrite : ℤ) (s : Retry) : Writer :=
  { kvwritecfd := s.cfd
    oneipbf := if nWrite < 0 then { w.oneipbf with port := 0 } else s.oneip
    written := w.written ++ [(s.cfd, key)] }

/-- **A key of `keyValueWrite`**, with the server the list gives for it, the
calls of `ConnectServ` to come and the result of `WriteData`: the number of
retries made, and the client afterwards. It is undefined where the rounds end
before the loop does. -/
def keyValueWrite (w : Writer) (key : Bytes) (oneip : IpPort) (calls : ℕ → Connection)
    (nWrite : ℤ) (rounds : ℕ) : Option (ℕ × Writer) :=
  (if oneip.ip ≠ w.oneipbf.ip ∨ oneip.port ≠ w.oneipbf.port then
    retryLoop writeBody calls rounds 0 (Retry.start (calls 0))
  else some (0, ⟨0, w.kvwritecfd, oneip⟩)).map (fun r => (r.1, w.send key nWrite r.2))

/-- **A loop stops on success**: right after the first call of `ConnectServ`
that returns no negative number, with its socket. -/
def StopsOnSuccess (body : Retry → Connection → Retry) (calls : ℕ → Connection) : Prop :=
  ∀ k, (∀ j < k, (calls j).n < 0) → 0 ≤ (calls k).n →
    ∃ rounds s, retryLoop body calls rounds 0 (Retry.start (calls 0)) = some (k, s)
      ∧ s.cfd = (calls k).cfd

variable {calls : ℕ → Connection} {s : Retry}

/-! ## The loops

In `keyValueWrite` the body of the loop declares a variable with the name of the
one that the loop tests. The call of `ConnectServ` sets the new one, which ends
with the body, and the test is made of the old one, which is still negative. In
`keyValueRequest` it is an assignment. -/

/-- **Once entered, the loop of `keyValueWrite` is not left.** -/
theorem retryLoop_writeBody_eq_none (hs : s.n < 0) (calls : ℕ → Connection) (rounds k : ℕ) :
    retryLoop writeBody calls rounds k s = none := by
  induction rounds generalizing s k with
  | zero => rfl
  | succ rounds ih =>
    unfold retryLoop
    rw [if_pos hs]
    -- the variable that is tested is not among those the body changes
    exact ih (s := writeBody s (calls (k + 1))) hs (k + 1)

/-- The loop of `keyValueRequest` stops at the first success. -/
theorem retryLoop_requestBody {k m : ℕ} (hfail : ∀ j < m, (calls (k + j)).n < 0)
    (hok : 0 ≤ (calls (k + m)).n) :
    retryLoop requestBody calls (m + 1) k (Retry.start (calls k))
      = some (k + m, Retry.start (calls (k + m))) := by
  induction m generalizing k with
  | zero =>
    unfold retryLoop
    exact if_neg (Int.not_lt.mpr hok)
  | succ m ih =>
    have hk : (Retry.start (calls k)).n < 0 := hfail 0 (Nat.zero_lt_succ m)
    have hnext : ∀ j, k + 1 + j = k + (j + 1) := fun j => by omega
    unfold retryLoop
    rw [if_pos hk, ← hnext m]
    refine ih (fun j hj => ?_) ?_
    · rw [hnext]
      exact hfail (j + 1) (Nat.succ_lt_succ hj)
    · rw [hnext]
      exact hok

/-- **`keyValueRequest` stops on success.** -/
theorem stopsOnSuccess_request (calls : ℕ → Connection) : StopsOnSuccess requestBody calls := by
  intro k hfail hok
  have hfail' : ∀ j < k, (calls (0 + j)).n < 0 := by
    intro j hj
    rw [Nat.zero_add]
    exact hfail j hj
  have hloop := retryLoop_requestBody hfail' (by rw [Nat.zero_add]; exact hok)
  rw [Nat.zero_add] at hloop
  exact ⟨k + 1, Retry.start (calls k), hloop, rfl⟩

/-- **`keyValueWrite` stops on success only if it need not retry**: where some
call of `ConnectServ` succeeds, exactly if the first does. -/
theorem stopsOnSuccess_write_iff (h : ∃ k, 0 ≤ (calls k).n) :
    StopsOnSuccess writeBody calls ↔ 0 ≤ (calls 0).n := by
  constructor
  · intro hstops
    by_contra hfirst
    obtain ⟨rounds, s, hloop, -⟩ := hstops (Nat.find h)
      (fun j hj => Int.not_le.mp (Nat.find_min h hj)) (Nat.find_spec h)
    rw [retryLoop_writeBody_eq_none (Int.not_le.mp hfirst)] at hloop
    exact absurd hloop (by simp)
  · intro hfirst k hfail hok
    -- a later call is not the first success
    obtain rfl : k = 0 := by
      by_contra hk
      exact absurd (hfail 0 (Nat.pos_of_ne_zero hk)) (Int.not_lt.mpr hfirst)
    refine ⟨1, Retry.start (calls 0), ?_, rfl⟩
    unfold retryLoop
    exact if_neg (Int.not_lt.mpr hfirst)

/-! ## A key -/

/-- **The client connects, and writes the key**: right after the first call of
`ConnectServ` that returns no negative number, the client has its socket, and
has written the key on it. -/
def ConnectsAndWrites (w : Writer) (key : Bytes) (oneip : IpPort) (calls : ℕ → Connection)
    (nWrite : ℤ) : Prop :=
  ∀ k, (∀ j < k, (calls j).n < 0) → 0 ≤ (calls k).n →
    ∃ rounds w', keyValueWrite w key oneip calls nWrite rounds = some (k, w')
      ∧ w'.kvwritecfd = (calls k).cfd ∧ w'.written = w.written ++ [((calls k).cfd, key)]

/-- With another server than before, what happens is what the loop does. -/
theorem connectsAndWrites_iff_stopsOnSuccess {w : Writer} {oneip : IpPort}
    (hother : oneip.ip ≠ w.oneipbf.ip ∨ oneip.port ≠ w.oneipbf.port) (key : Bytes)
    (calls : ℕ → Connection) (nWrite : ℤ) :
    ConnectsAndWrites w key oneip calls nWrite ↔ StopsOnSuccess writeBody calls := by
  have heq : ∀ rounds, keyValueWrite w key oneip calls nWrite rounds
      = (retryLoop writeBody calls rounds 0 (Retry.start (calls 0))).map
        (fun r => (r.1, w.send key nWrite r.2)) := by
    intro rounds
    unfold keyValueWrite
    rw [if_pos hother]
  refine forall_congr' (fun k => imp_congr_right (fun _ => imp_congr_right (fun _ => ?_)))
  refine exists_congr (fun rounds => ?_)
  rw [heq]
  constructor
  · rintro ⟨w', hkey, hcfd, -⟩
    obtain ⟨⟨k', s⟩, hloop, hpair⟩ := Option.map_eq_some_iff.mp hkey
    obtain ⟨rfl, rfl⟩ := Prod.mk.inj hpair
    exact ⟨s, hloop, hcfd⟩
  · rintro ⟨s, hloop, hcfd⟩
    refine ⟨w.send key nWrite s, by rw [hloop]; rfl, hcfd, ?_⟩
    rw [← hcfd]
    rfl

/-- **When the client connects and writes.** Where the key goes to another
server than the one before and some retry returns no negative number, the loop
ends right after the first such call, with its socket, before the key is
written, exactly if it is not entered: if `ConnectServ` succeeds at once. -/
theorem connectsAndWrites_iff {w : Writer} {oneip : IpPort}
    (hother : oneip.ip ≠ w.oneipbf.ip ∨ oneip.port ≠ w.oneipbf.port)
    {calls : ℕ → Connection} (hretry : ∃ k, 0 < k ∧ 0 ≤ (calls k).n) (key : Bytes) (nWrite : ℤ) :
    ConnectsAndWrites w key oneip calls nWrite ↔ 0 ≤ (calls 0).n := by
  obtain ⟨k, -, hk⟩ := hretry
  rw [connectsAndWrites_iff_stopsOnSuccess hother, stopsOnSuccess_write_iff ⟨k, hk⟩]

/-- A client whose server before was on port `7001`. -/
def writer : Writer := ⟨5, ⟨7001, str "127.0.0.1"⟩, []⟩

/-- `ConnectServ` succeeds with every call. -/
theorem connectsAndWrites_iff_at_once :
    ConnectsAndWrites writer (str "k") ⟨7002, str "127.0.0.1"⟩
      (fun _ => Connection.to ⟨7002, str "127.0.0.1"⟩ (fun _ => ⟨6, 0⟩)) 2 :=
  (connectsAndWrites_iff (Or.inr (by decide)) ⟨1, by decide, by decide⟩ _ _).mpr (by decide)

/-- **The server comes back while the client retries**: five attempts to connect
fail, then every attempt succeeds, and the loop does not end. -/
theorem not_connectsAndWrites_after_refusal :
    ¬ ∀ (w : Writer) (key : Bytes) (oneip : IpPort) (calls : ℕ → Connection) (nWrite : ℤ),
      oneip.ip ≠ w.oneipbf.ip ∨ oneip.port ≠ w.oneipbf.port →
      (∃ k, 0 < k ∧ 0 ≤ (calls k).n) → ConnectsAndWrites w key oneip calls nWrite := by
  intro h
  have hwrites := h writer (str "k") ⟨7002, str "127.0.0.1"⟩
    (fun k => Connection.to ⟨7002, str "127.0.0.1"⟩ (fun _ => ⟨6 + k, if k = 0 then -1 else 0⟩))
    2 (Or.inr (by decide)) ⟨1, by decide, by decide⟩
  obtain ⟨rounds, w', hkey, -⟩ := hwrites 1 (by decide) (by decide)
  rw [keyValueWrite, if_pos (Or.inr (by decide)), retryLoop_writeBody_eq_none (by decide)] at hkey
  exact absurd hkey (by simp)

end Client

end MiniDcs
