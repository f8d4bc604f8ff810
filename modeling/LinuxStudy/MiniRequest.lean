import LinuxStudy.Framing
import LinuxStudy.MiniBuffer

/-!
# Requests on a connection

When a connection can be read, the server reads what there is into the
connection's buffer – once, or edge-triggered until a read would block – and
then handles the connection: everything in the buffer goes to the JSON parser
as one text, and the value it gives is dispatched by machine and request
type. Nothing is kept for the next event, and nothing looks for the end of a
request. A client sends a request as the text of a JSON value followed by two
NUL bytes, one from `buf+='\0'` and one from the length `buf.length()+1`.

The JSON library is a parameter. What it is relied on for is `Documented`:
a NUL byte ends the input, an empty input and an incomplete value throw, the
text of a value gives the value back, and so does no proper end of the text
of a request.

`serve_eq_some_iff` says when a connection is served: every request is
dispatched once, in order, and nothing throws, exactly when what is read at
each event is one request with both its NUL bytes, or nothing. Two requests
read at one event are dispatched as one (`second_request_lost`).
-/

namespace MiniDcs

open Socket

/-! ## The request -/

/-- `req`: what is read of a request. -/
structure Req where
  machineType : ℤ
  reqType : ℤ
  deriving DecidableEq

/-- Where the `switch` statements of `parse` lead. -/
inductive Handler
  /-- `cacheServer_KeepAlive`. -/
  | cacheServerKeepAlive
  /-- `client_GetDistritution`. -/
  | clientGetDistritution
  /-- `request_master_`, which does nothing. -/
  | requestMaster
  /-- A request type the machine type does not have. -/
  | unknownType
  /-- A machine type there is not. -/
  | unknownMachine
  deriving DecidableEq

/-- `request_cacheServer_`. -/
def requestCacheServer (req : Req) : Handler :=
  if req.reqType = 0 then .cacheServerKeepAlive else .unknownType

/-- `request_client_`. -/
def requestClient (req : Req) : Handler :=
  if req.reqType = 0 then .clientGetDistritution else .unknownType

/-- The `switch` of `parse`. -/
def Req.handler (req : Req) : Handler :=
  if req.machineType = 0 then requestCacheServer req
  else if req.machineType = 1 then requestClient req
  else if req.machineType = 2 then .requestMaster
  else .unknownMachine

/-- **The JSON library**, as far as it is used. `none` stands for an
exception. -/
structure JsonLib where
  Json : Type
  /-- `json::parse`. -/
  parse : Bytes → Option Json
  /-- `dump`. -/
  dump : Json → Bytes
  /-- `at(key).get_to` of an `int`. -/
  atInt : Json → Bytes → Option ℤ

namespace JsonLib

variable (J : JsonLib)

/-- `from_json`. -/
def getReq (j : J.Json) : Option Req :=
  (J.atInt j (str "req_type")).bind (fun reqType =>
    (J.atInt j (str "machineType")).map (fun machineType => ⟨machineType, reqType⟩))

/-- **What the library is documented to do.** -/
structure Documented : Prop where
  /-- A NUL byte ends the input. -/
  nul_ends : ∀ s, J.parse s = J.parse (Framing.head nul s)
  /-- An empty input throws. -/
  empty : J.parse [] = none
  /-- A text has no NUL byte: control characters are escaped. -/
  dump_clean : ∀ j, nul ∉ J.dump j
  /-- The text of a value gives the value back. -/
  parse_dump : ∀ j, J.parse (J.dump j) = some j
  /-- The start of the text of a request is incomplete, and throws. -/
  incomplete : ∀ {j}, J.getReq j ≠ none → ∀ {p s}, J.dump j = p ++ s → s ≠ [] →
    J.parse p = none
  /-- The end of the text of a request is not a value, and throws. -/
  headless : ∀ {j}, J.getReq j ≠ none → ∀ {p s}, J.dump j = p ++ s → p ≠ [] → s ≠ [] →
    J.parse s = none

/-- What `WriteData` sends. -/
def writeData (j : J.Json) : Bytes :=
  let buf := J.dump j ++ [nul]
  buf ++ [nul]

/-- `Request::parse`: what is dispatched, and what the function returns. The
buffer is emptied before anything can throw. -/
def requestParse (buff : Buffer) : Option (Buffer × Req × Bool) :=
  let (buff, s) := buff.alltoStr
  (J.parse s).bind (fun j =>
    (J.getReq j).map (fun req => (buff, req, req.handler ≠ .unknownMachine)))

/-- `handleConnec`: nothing happens where there is nothing to be read. What
is returned is left out; it is `needSend`, which the handlers set. -/
def handleConnec (readBuffer : Buffer) : Option (Buffer × List Req) :=
  if readBuffer.readableBytes ≤ 0 then some (readBuffer, [])
  else (J.requestParse readBuffer).map (fun r => (r.1, [r.2.1]))

end JsonLib

/-! ## The events of a connection -/

/-- `Connection::readBuffer`: one read, or edge-triggered as many as give
something. It is undefined where the results of `readv` to come end. -/
def readBuffer (isET : Bool) :
    List ReadResult → Buffer → Option (Buffer × ℤ × Option Errno × List ReadResult)
  | [], _ => none
  | r :: rest, b =>
    let (b, len, saveErrno) := b.readFd r
    -- `do … while(isET)`, left by a read that gives nothing
    if len ≤ 0 then some (b, len, saveErrno, rest)
    else if isET then readBuffer isET rest b
    else some (b, len, saveErrno, rest)

/-- `onRead_`: what an event dispatches. It is undefined where something is
thrown, and where the connection is closed. -/
def JsonLib.onRead (J : JsonLib) (isET : Bool) (b : Buffer) (script : List ReadResult) :
    Option (Buffer × List Req × List ReadResult) :=
  (readBuffer isET script b).bind (fun r =>
    if r.2.1 ≤ 0 ∧ r.2.2.1 ≠ some Errno.eagain then none
    else (J.handleConnec r.1).map (fun h => (h.1, h.2, r.2.2.2)))

/-- What a number of events on one connection dispatch. -/
def JsonLib.serve (J : JsonLib) (isET : Bool) (b : Buffer) (script : List ReadResult) :
    ℕ → Option (List Req)
  | 0 => some []
  | events + 1 =>
    (J.onRead isET b script).bind (fun r =>
      (J.serve isET r.1 r.2.2 events).map (fun reqs => r.2.1 ++ reqs))

/-- The blocks read at an event: none is empty, and there is at most one when
the event is not edge-triggered. -/
def IsEvent (isET : Bool) (blocks : List Bytes) : Prop :=
  (∀ b ∈ blocks, b ≠ []) ∧ (isET = false → blocks.length ≤ 1)

instance (isET : Bool) (blocks : List Bytes) : Decidable (IsEvent isET blocks) :=
  inferInstanceAs (Decidable (_ ∧ _))

/-- The results of `readv` at an event: reading on, or reading where there is
nothing, would block. -/
def eventReads (isET : Bool) (blocks : List Bytes) : List ReadResult :=
  blocks.map ReadResult.data
    ++ if isET = true ∨ blocks = [] then [ReadResult.error Errno.eagain] else []

theorem readBuffer_eagain (isET : Bool) (b : Buffer) (rest : List ReadResult) :
    readBuffer isET (ReadResult.error Errno.eagain :: rest) b
      = some (b, -1, some Errno.eagain, rest) := by
  unfold readBuffer
  exact if_pos (by decide)

theorem readFd_data_snd (b : Buffer) (data : Bytes) :
    (b.readFd (.data data)).2 = ((data.length : ℤ), none) := by
  unfold Buffer.readFd
  dsimp only
  split <;> rfl

/-- A read that gives something. -/
theorem readBuffer_data {isET : Bool} {data : Bytes} (h : data ≠ []) (b : Buffer)
    (rest : List ReadResult) :
    readBuffer isET (ReadResult.data data :: rest) b
      = if isET = true then readBuffer isET rest (b.readFd (.data data)).1
        else some ((b.readFd (.data data)).1, data.length, none, rest) := by
  have hread : b.readFd (.data data) = ((b.readFd (.data data)).1, (data.length : ℤ), none) :=
    Prod.ext rfl (readFd_data_snd b data)
  have hpos : ¬ (data.length : ℤ) ≤ 0 := by
    have hlen := List.length_pos_iff.mpr h
    omega
  rw [readBuffer, hread]
  exact if_neg hpos

/-- **An event reads its blocks** and nothing else, and does not close the
connection. -/
theorem readBuffer_eventReads {isET : Bool} {blocks : List Bytes}
    (h : IsEvent isET blocks) (b : Buffer) (rest : List ReadResult) :
    ∃ b' len saveErrno,
      readBuffer isET (eventReads isET blocks ++ rest) b = some (b', len, saveErrno, rest)
      ∧ b'.readable = b.readable ++ blocks.flatten
      ∧ ¬ (len ≤ 0 ∧ saveErrno ≠ some Errno.eagain) := by
  induction blocks generalizing b with
  | nil =>
    refine ⟨b, -1, some Errno.eagain, ?_, (List.append_nil _).symm, fun hc => hc.2 rfl⟩
    rw [show eventReads isET [] = [ReadResult.error Errno.eagain] by simp [eventReads]]
    exact readBuffer_eagain isET b rest
  | cons block blocks ih =>
    have hblock : block ≠ [] := h.1 block List.mem_cons_self
    have hread : (b.readFd (.data block)).1.readable = b.readable ++ block :=
      b.readable_readFd (.data block)
    cases isET with
    | true =>
      -- the loop goes on with the blocks that are left
      obtain ⟨b', len, saveErrno, hloop, hreadable, hopen⟩ :=
        ih ⟨fun x hx => h.1 x (List.mem_cons_of_mem _ hx), fun hc => absurd hc (by simp)⟩
          (b.readFd (.data block)).1
      have hreads : eventReads true (block :: blocks)
          = ReadResult.data block :: eventReads true blocks := by
        simp [eventReads]
      refine ⟨b', len, saveErrno, ?_, ?_, hopen⟩
      · rw [hreads, List.cons_append, readBuffer_data hblock, if_pos rfl, hloop]
      · rw [hreadable, hread, List.append_assoc]
        rfl
    | false =>
      have hnil : blocks = [] := by
        have hlen := h.2 rfl
        rw [List.length_cons] at hlen
        exact List.length_eq_zero_iff.mp (by omega)
      subst hnil
      refine ⟨(b.readFd (.data block)).1, block.length, none, ?_, ?_, fun hc => ?_⟩
      · rw [show eventReads false [block] = [ReadResult.data block] by simp [eventReads]]
        exact (readBuffer_data hblock b rest).trans (if_neg (by simp))
      · rw [hread, List.flatten_cons, List.flatten_nil, List.append_nil]
      · have hlen := List.length_pos_iff.mpr hblock
        have hle : (block.length : ℤ) ≤ 0 := hc.1
        omega

/-! ## What is dispatched

What is read at an event is one block, whether it came by one read or by several,
and a block goes to the parser as a whole. The reader is then the one of `Framing`
that parses blocks: a request is followed by two terminators, both of which
`WriteData` sends along, and the buffer is emptied whatever the parser makes of
it. -/

section Dispatched

variable {J : JsonLib}

/-- What the parser and `from_json` together make of a text. -/
def JsonLib.parseReq (J : JsonLib) (s : Bytes) : Option Req := (J.parse s).bind J.getReq

/-- **What an event dispatches**: nothing, or what everything that was read
is parsed as. -/
theorem onRead_eventReads {isET : Bool} {blocks : List Bytes} (h : IsEvent isET blocks)
    {b : Buffer} (hb : b.readable = []) (rest : List ReadResult) :
    (blocks.flatten = [] ∧ ∃ b', J.onRead isET b (eventReads isET blocks ++ rest)
        = some (b', [], rest) ∧ b'.readable = [])
      ∨ (blocks.flatten ≠ [] ∧ ∃ b', J.onRead isET b (eventReads isET blocks ++ rest)
        = (J.parseReq blocks.flatten).map (fun req => (b', [req], rest))
          ∧ b'.readable = []) := by
  obtain ⟨b', len, saveErrno, hread, hreadable, hopen⟩ := readBuffer_eventReads h b rest
  rw [hb, List.nil_append] at hreadable
  have hbytes : b'.readableBytes = blocks.flatten.length := by
    rw [← Buffer.length_readable, hreadable]
  have hon : J.onRead isET b (eventReads isET blocks ++ rest)
      = (J.handleConnec b').map (fun h => (h.1, h.2, rest)) := by
    unfold JsonLib.onRead
    rw [hread]
    exact if_neg hopen
  rw [hon]
  unfold JsonLib.handleConnec
  by_cases hempty : blocks.flatten = []
  · refine Or.inl ⟨hempty, b', ?_, by rw [hreadable, hempty]⟩
    rw [if_pos (by rw [hbytes, hempty]; exact Nat.le_refl 0)]
    rfl
  · refine Or.inr ⟨hempty, b'.initPtr, ?_, b'.readable_initPtr⟩
    have hpos : 0 < blocks.flatten.length := List.length_pos_iff.mpr hempty
    rw [if_neg (by rw [hbytes]; exact Nat.not_le.mpr hpos)]
    unfold JsonLib.requestParse JsonLib.parseReq Buffer.alltoStr
    dsimp only
    rw [hreadable]
    cases J.parse blocks.flatten with
    | none => rfl
    | some j =>
      show (((J.getReq j).map _).map _).map _ = (J.getReq j).map _
      cases J.getReq j with
      | none => rfl
      | some req => rfl

/-- A connection parses what it reads at each event. -/
theorem serve_eq_parseAll {isET : Bool} {events : List (List Bytes)}
    (h : ∀ e ∈ events, IsEvent isET e) {b : Buffer} (hb : b.readable = []) :
    J.serve isET b (events.flatMap (eventReads isET)) events.length
      = Framing.parseAll J.parseReq (events.map List.flatten) := by
  induction events generalizing b with
  | nil => rfl
  | cons e events ih =>
    have hrest := fun {b'} (hb' : Buffer.readable b' = []) =>
      ih (fun e' he' => h e' (List.mem_cons_of_mem _ he')) hb'
    rw [List.flatMap_cons, List.map_cons, Framing.parseAll]
    show (J.onRead isET b _).bind _ = _
    rcases onRead_eventReads (J := J) (h e List.mem_cons_self) hb
      (events.flatMap (eventReads isET)) with ⟨hnil, b', hon, hb'⟩ | ⟨hne, b', hon, hb'⟩
    · rw [hon, if_pos hnil, Option.bind_some, hrest hb']
      exact Option.map_id'
    · rw [hon, if_neg hne]
      cases J.parseReq e.flatten with
      | none => rfl
      | some req =>
        rw [Option.map_some, Option.bind_some, hrest hb', Option.bind_some]
        rfl

/-- The texts of requests are what the parser is for. -/
theorem JsonLib.Documented.parses (hJ : J.Documented) {j : J.Json} {req : Req}
    (h : J.getReq j = some req) : Framing.Parses nul J.parseReq (J.dump j, req) := by
  have hreq : J.getReq j ≠ none := by
    rw [h]
    exact Option.some_ne_none req
  refine ⟨⟨fun hnil => ?_, hJ.dump_clean j⟩, ?_, fun hsplit hs => ?_, fun hsplit hp hs => ?_⟩
  · have hempty : J.dump j = [] := hnil
    have hval := hJ.parse_dump j
    rw [hempty, hJ.empty] at hval
    exact absurd hval (Option.some_ne_none j).symm
  · show (J.parse (J.dump j)).bind J.getReq = _
    rw [hJ.parse_dump, Option.bind_some, h]
  · show (J.parse _).bind J.getReq = none
    rw [hJ.incomplete hreq hsplit hs]
    rfl
  · show (J.parse _).bind J.getReq = none
    rw [hJ.headless hreq hsplit hp hs]
    rfl

end Dispatched

/-- **When a connection is served.** Requests are sent on one connection as
`WriteData` sends them, and reach the server in any pieces, over any number
of events, edge-triggered or not. Every request is dispatched once and in
order, and nothing throws, exactly when the events that read something each
read one request with both its NUL bytes. -/
theorem serve_eq_some_iff (J : JsonLib) (hJ : J.Documented) (isET : Bool)
    (requests : List (J.Json × Req)) (hrequests : ∀ r ∈ requests, J.getReq r.1 = some r.2)
    (events : List (List Bytes)) (hevents : ∀ e ∈ events, IsEvent isET e)
    (hstream : (events.map List.flatten).flatten
      = requests.flatMap (fun r => J.writeData r.1)) (initBuffersize : ℕ) :
    J.serve isET (Buffer.new initBuffersize) (events.flatMap (eventReads isET)) events.length
        = some (requests.map Prod.snd)
      ↔ (events.map List.flatten).filter (fun b => b ≠ [])
        = requests.map (fun r => J.writeData r.1) := by
  have hwrite : ∀ j, J.writeData j = J.dump j ++ [nul, nul] := by
    intro j
    unfold JsonLib.writeData
    rw [List.append_assoc]
    rfl
  have hframe : (events.map List.flatten).flatten
      = Framing.frame₂ nul (requests.map (fun r => (J.dump r.1, r.2))) := by
    unfold Framing.frame₂
    rw [hstream, List.flatMap_map]
    simp only [hwrite]
  have hnew : (Buffer.new initBuffersize).readable = [] := by
    unfold Buffer.readable Buffer.new
    rw [List.take_zero, List.drop_nil]
  have hz : ∀ s, J.parseReq s = J.parseReq (Framing.head nul s) := fun s =>
    congrArg (fun o => Option.bind o J.getReq) (hJ.nul_ends s)
  have hnil : J.parseReq [] = none := congrArg (fun o => Option.bind o J.getReq) hJ.empty
  have hparses : ∀ t ∈ requests.map (fun r => (J.dump r.1, r.2)),
      Framing.Parses nul J.parseReq t := by
    intro t ht
    obtain ⟨r, hr, rfl⟩ := List.mem_map.mp ht
    exact hJ.parses (hrequests r hr)
  have hiff := Framing.parseAll_eq_some_iff hz hnil hframe hparses
  rw [serve_eq_parseAll hevents hnew]
  rw [List.map_map, List.map_map] at hiff
  simpa only [Function.comp_def, hwrite] using hiff

/-! ## A request that is lost

The library is a parameter, with what it is documented to do. Here it is one that
knows two texts, so that the statement can be looked at with a request in two
pieces and with two requests in one. -/

/-- The heartbeat of a cache server, as a text. -/
def keepAliveText : Bytes :=
  str "\x7b\"data\":\x7b\x7d,\"machineType\":0,\"req_type\":0\x7d"

/-- A client's request for the distribution, as a text. -/
def distributionText : Bytes :=
  str "\x7b\"data\":\x7b\x7d,\"machineType\":1,\"req_type\":0\x7d"

/-- A library that knows two values, a heartbeat and a client's request, and
takes everything else for an error. -/
def twoRequests : JsonLib where
  Json := Bool
  parse s :=
    if Framing.head nul s = keepAliveText then some false
    else if Framing.head nul s = distributionText then some true
    else none
  dump client := if client then distributionText else keepAliveText
  atInt client key :=
    if key = str "machineType" then some (if client then 1 else 0)
    else if key = str "req_type" then some 0
    else none

instance : DecidableEq twoRequests.Json := inferInstanceAs (DecidableEq Bool)

theorem length_dump_twoRequests : ∀ client : twoRequests.Json,
    (twoRequests.dump client).length = 40
  | true => by decide +kernel
  | false => by decide +kernel

theorem twoRequests_parse_eq_none {p : Bytes} (h : p.length < 40) :
    twoRequests.parse p = none := by
  have hlen : (Framing.head nul p).length < 40 :=
    Nat.lt_of_le_of_lt (List.takeWhile_sublist _).length_le h
  have hne : ∀ client, Framing.head nul p ≠ twoRequests.dump client := by
    intro client heq
    rw [heq, length_dump_twoRequests] at hlen
    exact Nat.lt_irrefl _ hlen
  exact (if_neg (hne false)).trans (if_neg (hne true))

/-- The library with two values does what is documented. -/
theorem documented_twoRequests : twoRequests.Documented where
  nul_ends s := by
    show (if _ then _ else if _ then _ else _) = (if _ then _ else if _ then _ else _)
    rw [show Framing.head nul (Framing.head nul s) = Framing.head nul s from
      List.takeWhile_idem]
  empty := twoRequests_parse_eq_none (by decide)
  dump_clean
    | true => by decide +kernel
    | false => by decide +kernel
  parse_dump
    | true => by decide +kernel
    | false => by decide +kernel
  incomplete {client} _ {p s} hsplit hs := by
    have hlen := congrArg List.length hsplit
    rw [length_dump_twoRequests, List.length_append] at hlen
    have hpos := List.length_pos_iff.mpr hs
    exact twoRequests_parse_eq_none (by omega)
  headless {client} _ {p s} hsplit hp _ := by
    have hlen := congrArg List.length hsplit
    rw [length_dump_twoRequests, List.length_append] at hlen
    have hpos := List.length_pos_iff.mpr hp
    exact twoRequests_parse_eq_none (by omega)

/-- A heartbeat in two reads of one event, and a client's request at the next
but one. -/
theorem serve_eq_some_iff_twoRequests :
    twoRequests.serve true (Buffer.new 16)
        ([[keepAliveText, [nul, nul]], [], [distributionText ++ [nul, nul]]].flatMap
          (eventReads true)) 3
      = some [⟨0, 0⟩, ⟨1, 0⟩] :=
  (serve_eq_some_iff twoRequests documented_twoRequests true
    [(false, ⟨0, 0⟩), (true, ⟨1, 0⟩)] (by decide +kernel)
    [[keepAliveText, [nul, nul]], [], [distributionText ++ [nul, nul]]] (by decide +kernel)
    (by decide +kernel) 16).mpr (by decide +kernel)

/-- **Two requests read at one event are dispatched as one.** -/
theorem second_request_lost :
    ¬ ∀ (J : JsonLib), J.Documented → ∀ (isET : Bool) (requests : List (J.Json × Req)),
      (∀ r ∈ requests, J.getReq r.1 = some r.2) →
      ∀ events : List (List Bytes), (∀ e ∈ events, IsEvent isET e) →
      (events.map List.flatten).flatten = requests.flatMap (fun r => J.writeData r.1) →
      ∀ initBuffersize : ℕ,
        J.serve isET (Buffer.new initBuffersize) (events.flatMap (eventReads isET))
          events.length = some (requests.map Prod.snd) := by
  intro h
  have hlost := h twoRequests documented_twoRequests true [(false, ⟨0, 0⟩), (true, ⟨1, 0⟩)]
    (by decide +kernel)
    [[keepAliveText ++ [nul, nul] ++ distributionText ++ [nul, nul]]] (by decide +kernel)
    (by decide +kernel) 1024
  exact absurd hlost (by decide +kernel)

end MiniDcs
