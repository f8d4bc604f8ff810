import LinuxStudy.OrdMap
import LinuxStudy.SockAddr

/-!
# The chat room server

`ChatRoomServer` waits for its sockets, one event after the other. A client
that connects has no name; the first thing it sends becomes its name, in
brackets, and everything after that goes to the other clients, behind the name.

It does not come so far. When a client connects, the server asks for the text of
its address, and gives `inet_ntop` a buffer of 16 bytes and the size of the
address, which is 4. No address has so short a text (`inetNtop_four`), so the
call fails and the server exits, with the first client (`run_of_accept`). A
client that is connected to it is never written to.

There is a second slip behind that. What a client sends is read into `buffer`
and then taken as a C string, up to the first NUL. `read` writes as many bytes
as there are, and no NUL behind them: what follows is what an earlier and longer
message has left there. The text the others get is the message alone exactly if
the byte behind it happens to be NUL, and a message that fills the buffer has no
byte behind it. `carriesOnlySent_iff` says both: what the program does for the
clients that have connected, and what the branch that reads would do for any.

The order in which the clients are written to is not specified; here it is that
of their sockets.
-/

namespace ChatRoom

open Socket

/-- `MAX_MESSAGE_LEN`. -/
def maxMessageLen : ℕ := 4096

/-- What `read` has read: up to `MAX_MESSAGE_LEN` bytes, and none at the end of
the file. -/
structure Chunk where
  bytes : Bytes
  length_le : bytes.length ≤ maxMessageLen

/-- `buffer`. -/
structure Buffer where
  bytes : Bytes
  length_eq : bytes.length = maxMessageLen

namespace Buffer

/-- `read`: the first bytes are those read, and the others stay. -/
def read (b : Buffer) (c : Chunk) : Buffer where
  bytes := c.bytes ++ b.bytes.drop c.bytes.length
  length_eq := by
    rw [List.length_append, List.length_drop, b.length_eq]
    exact Nat.add_sub_cancel' c.length_le

/-- `std::string msg(buffer)`: up to the first NUL. Without one it reads on
behind the buffer, which is undefined. -/
def msg (b : Buffer) : Option Bytes :=
  if nul ∈ b.bytes then some (b.bytes.takeWhile (· ≠ nul)) else none

end Buffer

/-- **The server**: the names of the clients by their sockets, and what is in
`buffer`. -/
structure Server where
  clients : OrdMap ℕ Bytes
  buffer : Buffer

/-- `inet_ntop` of an IPv4 address, with so many bytes for the text and its
NUL. -/
def inetNtop (addr : InAddr) (size : ℕ) : Option Bytes :=
  if (inetNtoa addr).length + 1 ≤ size then some (inetNtoa addr) else none

/-- What `epoll_wait` reports. -/
inductive Event where
  /-- A client connects, and `accept` gives it a socket and its address. -/
  | accept (clientfd : ℕ) (clientAddr : InAddr)
  /-- There is something to read from a client. -/
  | readable (fd : ℕ) (chunk : Chunk)

/-- A text written to a socket. -/
structure Write where
  fd : ℕ
  text : Bytes

namespace Server

/-- `clients[fd].name`. A client that is not there is made, without a name. -/
def name (s : Server) (fd : ℕ) : Bytes := (s.clients.get? fd).getD []

/-- The loop that writes a text to the other clients. -/
def broadcast (s : Server) (fd : ℕ) (sendMsg : Bytes) : List Write :=
  (s.clients.entries.filter fun e => e.1 ≠ fd).map fun e => ⟨e.1, sendMsg⟩

/-- **The loop of `main`**, for one event: the server afterwards, and what it has
written. There is none where it exits, or where what it does is not defined. -/
def handle (s : Server) : Event → Option (Server × List Write)
  | .accept clientfd clientAddr => do
    -- `sizeof(clientAddr.sin_addr.s_addr)` is the size that is given
    let _peerIP ← inetNtop clientAddr 4
    return ({ s with clients := s.clients.assign clientfd [] }, [])
  | .readable fd chunk =>
    let s := { s with buffer := s.buffer.read chunk }
    if chunk.bytes.length = 0 then some ({ s with clients := s.clients.erase fd }, [])
    else do
      let msg ← s.buffer.msg
      if s.name fd = [] then
        return ({ s with clients := s.clients.assign fd (str "[" ++ msg ++ str "]") }, [])
      else
        return (s, s.broadcast fd (s.name fd ++ str ": " ++ msg))

/-- The server after some events. -/
def run (s : Server) : List Event → Option Server
  | [] => some s
  | e :: events => do
    let (s, _) ← s.handle e
    s.run events

end Server

/-- The texts written to a client, where they are defined. -/
def textsTo (fd : ℕ) (result : Option (Server × List Write)) : Option (List Bytes) := do
  let (_, writes) ← result
  return (writes.filter fun w => w.fd = fd).map Write.text

/-! ## Who is connected

The first thing that happens in any run is that a client connects. `accept` has
given its address, and `inet_ntop` is to make a text of it, with
`sizeof(clientAddr.sin_addr.s_addr)` as the size of the room for it. That is four,
and the shortest address has seven characters. So `inet_ntop` fails, and the
server exits. No run has a client, and what is said of clients that are connected
is true of none. -/

/-- The clients that have connected and not left, after one more event. -/
def Event.connected (fds : List ℕ) : Event → List ℕ
  | .accept clientfd _ => clientfd :: fds
  | .readable fd chunk => if chunk.bytes.length = 0 then fds.filter (· ≠ fd) else fds

/-- The clients that have connected and not left. -/
def connected (events : List Event) : List ℕ := events.foldl Event.connected []

/-- The texts `main` writes to a client when something is read from another, after
some events and with what was in `buffer` before them. -/
def answerTo (clientfd : ℕ) (events : List Event) (b : Buffer) (fd : ℕ) (chunk : Chunk) :
    Option (List Bytes) :=
  textsTo clientfd (((Server.mk OrdMap.empty b).run events).bind fun s =>
    s.handle (.readable fd chunk))

/-- **Only what was sent**, by the program: in two runs, every other client that
is connected gets one text, a name in brackets and the bytes that were sent. -/
def RunsCarryOnlySent (events₁ events₂ : List Event) (b₁ b₂ : Buffer) (fd : ℕ) (chunk : Chunk) :
    Prop :=
  ∃ n, ∀ run ∈ [(events₁, b₁), (events₂, b₂)], ∀ other ∈ connected run.1, other ≠ fd →
    answerTo other run.1 run.2 fd chunk
      = some [str "[" ++ n ++ str "]" ++ str ": " ++ chunk.bytes]

theorem seven_le_length_inetNtoa (addr : InAddr) : 7 ≤ (inetNtoa addr).length := by
  have hdigit : ∀ n, 1 ≤ (decimal n).length := fun n => List.length_pos_of_ne_nil (decimal_ne_nil n)
  have h₀ := hdigit addr.b₀.toNat
  have h₁ := hdigit addr.b₁.toNat
  have h₂ := hdigit addr.b₂.toNat
  have h₃ := hdigit addr.b₃.toNat
  unfold inetNtoa
  simp only [List.length_append, List.length_cons]
  omega

/-- **No address has room in four bytes.** -/
theorem inetNtop_four (addr : InAddr) : inetNtop addr 4 = none := by
  have hlength := seven_le_length_inetNtoa addr
  exact if_neg (by omega)

theorem handle_accept (s : Server) (clientfd : ℕ) (clientAddr : InAddr) :
    s.handle (.accept clientfd clientAddr) = none := by
  unfold Server.handle
  dsimp only
  rw [inetNtop_four]
  rfl

/-- **A run with a client that connects ends there.** -/
theorem run_of_accept {events : List Event} {clientfd : ℕ} {clientAddr : InAddr}
    (h : .accept clientfd clientAddr ∈ events) (s : Server) : s.run events = none := by
  induction events generalizing s with
  | nil => exact absurd h List.not_mem_nil
  | cons e events ih =>
    unfold Server.run
    rcases List.mem_cons.mp h with rfl | hlater
    · rw [handle_accept]
      rfl
    · cases s.handle e with
      | none => rfl
      | some r => exact ih hlater r.1

/-- Who is connected has connected. -/
theorem exists_accept_of_mem_connected {events : List Event} {clientfd : ℕ}
    (h : clientfd ∈ connected events) : ∃ clientAddr, .accept clientfd clientAddr ∈ events := by
  have hfold : ∀ fds : List ℕ, clientfd ∈ events.foldl Event.connected fds →
      clientfd ∈ fds ∨ ∃ clientAddr, .accept clientfd clientAddr ∈ events := by
    clear h
    induction events with
    | nil => exact fun fds h => Or.inl h
    | cons e events ih =>
      intro fds h
      rcases ih (e.connected fds) h with hnow | ⟨clientAddr, hlater⟩
      · cases e with
        | accept fd addr =>
          rcases List.mem_cons.mp hnow with rfl | hbefore
          · exact Or.inr ⟨addr, List.mem_cons_self⟩
          · exact Or.inl hbefore
        | readable fd chunk =>
          refine Or.inl ?_
          unfold Event.connected at hnow
          dsimp only at hnow
          split at hnow
          · exact List.mem_of_mem_filter hnow
          · exact hnow
      · exact Or.inr ⟨clientAddr, List.mem_cons_of_mem _ hlater⟩
  exact (hfold [] h).resolve_left List.not_mem_nil

theorem answerTo_of_mem_connected {events : List Event} {clientfd : ℕ}
    (h : clientfd ∈ connected events) (b : Buffer) (fd : ℕ) (chunk : Chunk) :
    answerTo clientfd events b fd chunk = none := by
  obtain ⟨clientAddr, hmem⟩ := exists_accept_of_mem_connected h
  unfold answerTo
  rw [run_of_accept hmem]
  rfl

/-! ## What the branch that reads does

The branch is looked at by itself, with any clients and any buffer. The bytes are
read to the beginning of the buffer, and the message is the string that begins
there, so behind a message without a NUL it goes on with what was read before.
That the others get only what was sent is then a matter of one byte, in whatever
state the branch is entered. -/

/-- **Only what was sent**: with two contents of the buffer, every other client
gets one text, the name of the sender and the bytes it has sent. -/
def CarriesOnlySent (clients : OrdMap ℕ Bytes) (fd : ℕ) (chunk : Chunk) (b₁ b₂ : Buffer) : Prop :=
  ∀ other ∈ clients.entries, other.1 ≠ fd →
    ∀ b ∈ [b₁, b₂], textsTo other.1 ((Server.mk clients b).handle (.readable fd chunk))
      = some [(Server.mk clients b).name fd ++ str ": " ++ chunk.bytes]

/-- **The string is what was read** exactly if the byte behind it is NUL. -/
theorem msg_read_eq_iff {c : Chunk} (h : nul ∉ c.bytes) (b : Buffer) :
    (b.read c).msg = some c.bytes ↔ b.bytes[c.bytes.length]? = some nul := by
  have htake : (c.bytes ++ b.bytes.drop c.bytes.length).takeWhile (· ≠ nul)
      = c.bytes ++ (b.bytes.drop c.bytes.length).takeWhile (· ≠ nul) :=
    List.takeWhile_append_of_pos fun x hx => decide_eq_true fun heq => h (heq ▸ hx)
  have hhead : b.bytes[c.bytes.length]? = (b.bytes.drop c.bytes.length)[0]? := by
    rw [List.getElem?_drop, Nat.add_zero]
  show (if nul ∈ c.bytes ++ b.bytes.drop c.bytes.length
    then some ((c.bytes ++ b.bytes.drop c.bytes.length).takeWhile (· ≠ nul)) else none)
      = some c.bytes ↔ _
  rw [hhead, htake]
  cases b.bytes.drop c.bytes.length with
  | nil => simp [h]
  | cons x rest =>
    by_cases hx : x = nul
    · simp [hx]
    · simp [hx]

/-- **What another client gets** of a text. -/
theorem textsTo_broadcast (s s' : Server) {fd : ℕ} {other : ℕ × Bytes} (text : Bytes)
    (h : other ∈ s.clients.entries) (hne : other.1 ≠ fd) :
    textsTo other.1 (some (s', s.broadcast fd text)) = some [text] := by
  have hothers : (s.clients.entries.filter fun e => e.1 = other.1 ∧ e.1 ≠ fd) = [other] := by
    rw [← s.clients.filter_key_eq h]
    refine List.filter_congr fun e _ => decide_eq_decide.mpr (and_iff_left_of_imp fun heq => ?_)
    rwa [heq]
  have hwrites : ((s.broadcast fd text).filter fun w => w.fd = other.1) = [⟨other.1, text⟩] := by
    unfold Server.broadcast
    rw [List.filter_map, List.filter_filter]
    show ((s.clients.entries.filter fun e => decide (e.1 = other.1) && decide (e.1 ≠ fd)).map _)
      = _
    simp only [← Bool.decide_and, hothers]
    rfl
  show some (((s.broadcast fd text).filter fun w => w.fd = other.1).map Write.text) = some [text]
  rw [hwrites]
  rfl

theorem handle_message {s : Server} {fd : ℕ} {chunk : Chunk} (hname : s.name fd ≠ [])
    (hchunk : chunk.bytes.length ≠ 0) :
    s.handle (.readable fd chunk) = (s.buffer.read chunk).msg.map fun msg =>
      (⟨s.clients, s.buffer.read chunk⟩, s.broadcast fd (s.name fd ++ str ": " ++ msg)) := by
  unfold Server.handle
  simp only [if_neg hchunk]
  cases (s.buffer.read chunk).msg with
  | none => rfl
  | some msg => exact if_neg hname

/-- What another client gets of a message. -/
theorem textsTo_handle_iff {s : Server} {fd : ℕ} {chunk : Chunk} {other : ℕ × Bytes}
    (hname : s.name fd ≠ []) (hchunk : chunk.bytes.length ≠ 0) (h : other ∈ s.clients.entries)
    (hne : other.1 ≠ fd) :
    textsTo other.1 (s.handle (.readable fd chunk)) = some [s.name fd ++ str ": " ++ chunk.bytes]
      ↔ (s.buffer.read chunk).msg = some chunk.bytes := by
  rw [handle_message hname hchunk]
  cases (s.buffer.read chunk).msg with
  | none => exact iff_of_false (fun h => by cases h) (fun h => by cases h)
  | some msg =>
    rw [Option.map_some, textsTo_broadcast s _ _ h hne, Option.some_inj, List.cons.injEq,
      Option.some_inj, List.append_cancel_left_eq, and_iff_left rfl]

/-- A buffer with some bytes at its beginning, and NUL behind them. -/
def padded (c : Chunk) : Buffer :=
  Buffer.read ⟨List.replicate maxMessageLen nul, List.length_replicate⟩ c

/-- Two clients `[a]` and `[b]` connect. -/
def twoConnect : List Event :=
  [.accept 5 ⟨10, 0, 0, 1⟩, .readable 5 ⟨[97], by decide⟩, .accept 6 ⟨10, 0, 0, 2⟩,
    .readable 6 ⟨[98], by decide⟩]

/-- `hi` after `hello`, in the branch that reads: the other client gets
`hillo`. -/
theorem not_carriesOnlySent_after_longer :
    ¬ CarriesOnlySent ((OrdMap.empty.insert 5 [91, 97, 93]).insert 6 [91, 98, 93]) 6
        ⟨[104, 105], by decide⟩ (padded ⟨[], by decide⟩)
        (padded ⟨[104, 101, 108, 108, 111], by decide⟩) := by
  intro hcarries
  have htexts := hcarries (5, [91, 97, 93]) (by decide) (by decide)
    (padded ⟨[104, 101, 108, 108, 111], by decide⟩) (by simp)
  rw [textsTo_handle_iff (by decide) (by decide) (by decide) (by decide),
    msg_read_eq_iff (by decide)] at htexts
  exact absurd htexts (by decide)

/-! ## The names -/

/-- Every name is empty or in brackets. -/
def Bracketed (s : Server) : Prop :=
  ∀ fd name, s.clients.get? fd = some name → name = [] ∨ ∃ n, name = str "[" ++ n ++ str "]"

theorem bracketed_assign {s : Server} (h : Bracketed s) (b : Buffer) (fd : ℕ) {name : Bytes}
    (hname : name = [] ∨ ∃ n, name = str "[" ++ n ++ str "]") :
    Bracketed ⟨s.clients.assign fd name, b⟩ := by
  intro fd' name' hget
  rw [OrdMap.get?_assign] at hget
  split at hget
  · exact Option.some_inj.mp hget ▸ hname
  · exact h fd' name' hget

/-- A step of the server keeps the names in brackets. -/
theorem bracketed_handle {s s' : Server} {e : Event} {writes : List Write} (h : Bracketed s)
    (hstep : s.handle e = some (s', writes)) : Bracketed s' := by
  cases e with
  | accept clientfd clientAddr =>
    rw [handle_accept] at hstep
    cases hstep
  | readable fd chunk =>
    unfold Server.handle at hstep
    by_cases hend : chunk.bytes.length = 0
    · simp only [if_pos hend] at hstep
      obtain ⟨rfl, -⟩ := Prod.mk.inj (Option.some_inj.mp hstep)
      intro fd' name hget
      rw [OrdMap.get?_erase] at hget
      split at hget
      · cases hget
      · exact h fd' name hget
    · simp only [if_neg hend] at hstep
      obtain ⟨msg, -, hstep⟩ := Option.bind_eq_some_iff.mp hstep
      split at hstep
      · obtain ⟨rfl, -⟩ := Prod.mk.inj (Option.some_inj.mp hstep)
        exact bracketed_assign h _ fd (Or.inr ⟨msg, rfl⟩)
      · obtain ⟨rfl, -⟩ := Prod.mk.inj (Option.some_inj.mp hstep)
        exact h

/-- **In every run the names are in brackets.** -/
theorem bracketed_run {s s' : Server} {events : List Event} (h : Bracketed s)
    (hrun : s.run events = some s') : Bracketed s' := by
  induction events generalizing s with
  | nil => exact Option.some_inj.mp hrun ▸ h
  | cons e events ih =>
    obtain ⟨⟨s₁, writes⟩, hstep, hrest⟩ := Option.bind_eq_some_iff.mp hrun
    exact ih (bracketed_handle h hstep) hrest

end ChatRoom
