import LinuxStudy.CString

/-!
# The HTTP connection

A request is read into one buffer and parsed where it stands. `parse_line` looks
for the end of a line and puts terminators in place of it, so that the line is a
string; the request line and the headers are then cut up by further terminators,
and what is kept of them are pointers into the buffer. `process_read` goes from
line to line, and when the bytes give out it returns and is called again after
the next `recv`, with the state it left.

Pointers are indices of the buffer, `none` for a null pointer. Where the source
goes through a null pointer, or writes outside of the buffer, what it does is not
defined: those are the faults. `process_read` ends in a call of `do_request` once
the request is complete; here it is the outcome that says so.
-/

namespace TinyWeb

/-- `READ_BUFFER_SIZE`. -/
abbrev readBufferSize : ℕ := 2048

/-- `METHOD`, of which two are told apart. -/
inductive Method
  | get
  | post
  deriving DecidableEq

/-- `CHECK_STATE`. -/
inductive CheckState
  | requestLine
  | header
  | content
  deriving DecidableEq

/-- `HTTP_CODE`. -/
inductive HttpCode
  | noRequest
  | getRequest
  | badRequest
  | noResource
  | forbiddenRequest
  | fileRequest
  | internalError
  | closedConnection
  deriving DecidableEq

/-- `LINE_STATUS`. -/
inductive LineStatus
  | lineOk
  | lineBad
  | lineOpen
  deriving DecidableEq

/-- `tolower`. -/
def toLower (b : UInt8) : UInt8 := if 65 ≤ b ∧ b ≤ 90 then b + 32 else b

/-- `strcasecmp(s, t) == 0`. -/
def strcasecmp (s t : Bytes) : Bool := s.map toLower = t.map toLower

/-- `strncasecmp(s, t, n) == 0`. -/
def strncasecmp (s t : Bytes) (n : ℕ) : Bool := strcasecmp (s.take n) (t.take n)

/-- `atol`, as the GNU library has it for a number that does not fit. -/
def atol (s : Bytes) : ℤ := max (-2 ^ 63) (min (2 ^ 63 - 1) (atoi s))

/-- The characters of `" \t"`. -/
def isBlank (b : UInt8) : Bool := b = 32 ∨ b = 9

abbrev cr : UInt8 := 13

abbrev lf : UInt8 := 10

abbrev slash : UInt8 := 47

/-- **`http_conn`**, what it has for reading. -/
structure HttpConn where
  readBuf : Cells
  readIdx : ℕ
  checkedIdx : ℕ
  startLine : ℕ
  checkState : CheckState
  method : Method
  url : Option ℕ
  version : Option ℕ
  host : Option ℕ
  contentLength : ℤ
  linger : Bool
  cgi : Bool
  string : Option ℕ

/-- What a call of `process_read` ends in. -/
inductive ProcessRead
  | noRequest (s : HttpConn)
  | badRequest (s : HttpConn)
  /-- The request is complete, and `do_request` is called. -/
  | doRequest (s : HttpConn)
  /-- Nothing is said of what happens. -/
  | fault
  /-- More rounds are needed than there are. -/
  | running

/-- What a turn of the loop leads to. -/
inductive Turn
  | again (line : LineStatus) (s : HttpConn)
  | ended (p : ProcessRead)

namespace HttpConn

/-- `init`. -/
def init : HttpConn where
  readBuf := fun _ => nul
  readIdx := 0
  checkedIdx := 0
  startLine := 0
  checkState := .requestLine
  method := .get
  url := none
  version := none
  host := none
  contentLength := 0
  linger := false
  cgi := false
  string := none

/-- `*p = '\0'`. -/
def endAt (s : HttpConn) (p : ℕ) : HttpConn := { s with readBuf := s.readBuf.put p nul }

/-- The string at a pointer. -/
def text (s : HttpConn) (p : ℕ) : Bytes := s.readBuf.cstr (readBufferSize - p) p

/-- `strpbrk(p, " \t")`. -/
def strpbrk (s : HttpConn) (p : ℕ) : Option ℕ := ((s.text p).findIdx? isBlank).map (p + ·)

/-- `p + strspn(p, " \t")`. -/
def skipBlanks (s : HttpConn) (p : ℕ) : ℕ := p + ((s.text p).takeWhile isBlank).length

/-- `strchr(p, c)`. -/
def strchr (s : HttpConn) (p : ℕ) (c : UInt8) : Option ℕ :=
  ((s.text p).findIdx? (fun b => b = c)).map (p + ·)

/-! ## A line -/

/-- The loop of `parse_line`. The argument is `m_read_idx - m_checked_idx`. -/
def parseLineLoop : ℕ → HttpConn → HttpConn × LineStatus
  | 0, s => (s, .lineOpen)
  | left + 1, s =>
    let temp := s.readBuf s.checkedIdx
    if temp = cr then
      if s.checkedIdx + 1 = s.readIdx then (s, .lineOpen)
      else if s.readBuf (s.checkedIdx + 1) = lf then
        ({ s with
            readBuf := (s.readBuf.put s.checkedIdx nul).put (s.checkedIdx + 1) nul
            checkedIdx := s.checkedIdx + 2 }, .lineOk)
      else (s, .lineBad)
    else if temp = lf then
      if 1 < s.checkedIdx ∧ s.readBuf (s.checkedIdx - 1) = cr then
        ({ s with
            readBuf := (s.readBuf.put (s.checkedIdx - 1) nul).put s.checkedIdx nul
            checkedIdx := s.checkedIdx + 1 }, .lineOk)
      else (s, .lineBad)
    else parseLineLoop left { s with checkedIdx := s.checkedIdx + 1 }

/-- `parse_line`. -/
def parseLine (s : HttpConn) : HttpConn × LineStatus := parseLineLoop (s.readIdx - s.checkedIdx) s

/-! ## The request line

The line is cut by terminators, first behind the method, then in front of the
version. Pointers into it are places in the buffer. -/

/-- Where the path begins in a URL with a host: `strchr` from behind the scheme
on. A URL without the scheme is left as it is. -/
def skipHost (s : HttpConn) (scheme : Bytes) (url : ℕ) : Option ℕ :=
  if strncasecmp (s.text url) scheme scheme.length then s.strchr (url + scheme.length) slash
  else some url

/-- The end of `parse_request_line`: the host is skipped, and `/` stands for a
page of its own. The second `strncasecmp` goes through the result of the first
`strchr`. -/
def parseUrl (s : HttpConn) (url : ℕ) : Option (HttpConn × HttpCode) :=
  (s.skipHost (str "http://") url).bind (fun url =>
    match s.skipHost (str "https://") url with
    | none => some ({ s with url := none }, .badRequest)
    | some url =>
      if s.readBuf url ≠ slash then some ({ s with url := some url }, .badRequest)
      else
        some ({ s with
          url := some url
          readBuf := if (s.text url).length = 1
            then s.readBuf.storeAt (url + 1) (str "judge.html" ++ [nul]) else s.readBuf
          checkState := .header }, .noRequest))

/-- The middle of `parse_request_line`: the version. -/
def parseVersion (s : HttpConn) (url : ℕ) : Option (HttpConn × HttpCode) :=
  let url := s.skipBlanks url
  match s.strpbrk url with
  | none => some ({ s with url := some url, version := none }, .badRequest)
  | some p =>
    let s := s.endAt p
    let version := s.skipBlanks (p + 1)
    let s := { s with url := some url, version := some version }
    if strcasecmp (s.text version) (str "HTTP/1.1") then s.parseUrl url
    else some (s, .badRequest)

/-- **`parse_request_line`**: the method, and the rest. -/
def parseRequestLine (s : HttpConn) (text : ℕ) : Option (HttpConn × HttpCode) :=
  match s.strpbrk text with
  | none => some ({ s with url := none }, .badRequest)
  | some p =>
    let s := { s.endAt p with url := some (p + 1) }
    if strcasecmp (s.text text) (str "GET") then
      ({ s with method := .get } : HttpConn).parseVersion (p + 1)
    else if strcasecmp (s.text text) (str "POST") then
      ({ s with method := .post, cgi := true } : HttpConn).parseVersion (p + 1)
    else some (s, .badRequest)

/-! ## The headers and the body -/

/-- **`parse_headers`.** -/
def parseHeaders (s : HttpConn) (text : ℕ) : HttpConn × HttpCode :=
  if s.readBuf text = nul then
    if s.contentLength ≠ 0 then ({ s with checkState := .content }, .noRequest)
    else (s, .getRequest)
  else if strncasecmp (s.text text) (str "Connection:") 11 then
    if strcasecmp (s.text (s.skipBlanks (text + 11))) (str "keep-alive") then
      ({ s with linger := true }, .noRequest)
    else (s, .noRequest)
  else if strncasecmp (s.text text) (str "Content-length:") 15 then
    -- a `long` that is stored in an `int`
    ({ s with contentLength := Int.bmod (atol (s.text (s.skipBlanks (text + 15)))) (2 ^ 32) },
      .noRequest)
  else if strncasecmp (s.text text) (str "Host:") 5 then
    ({ s with host := some (s.skipBlanks (text + 5)) }, .noRequest)
  else (s, .noRequest)

/-- **`parse_content`.** The first addition is one of `int`s. -/
def parseContent (s : HttpConn) (text : ℕ) : Option (HttpConn × HttpCode) :=
  if 2 ^ 31 ≤ s.contentLength + s.checkedIdx then none
  else if s.contentLength + s.checkedIdx ≤ s.readIdx then
    let i : ℤ := text + s.contentLength
    if 0 ≤ i ∧ i < readBufferSize then
      some ({ s.endAt i.toNat with string := some text }, .getRequest)
    else none
  else some (s, .noRequest)

/-! ## From line to line

The loop has a line before it, or the body. In a round that begins in the body
with `LINE_OK` the condition holds by its first part, and `parse_line` is not
called. When the body is not complete the state of the line is `LINE_OPEN` in the
next round, and `parse_line` is called with the body before it. -/

/-- A turn of the loop of `process_read`, with a line or the body before it. -/
def turn (s : HttpConn) : Turn :=
  let text := s.startLine
  let s := { s with startLine := s.checkedIdx }
  match s.checkState with
  | .requestLine =>
    match s.parseRequestLine text with
    | none => .ended .fault
    | some (s, .badRequest) => .ended (.badRequest s)
    | some (s, _) => .again .lineOk s
  | .header =>
    match s.parseHeaders text with
    | (s, .badRequest) => .ended (.badRequest s)
    | (s, .getRequest) => .ended (.doRequest s)
    | (s, _) => .again .lineOk s
  | .content =>
    match s.parseContent text with
    | none => .ended .fault
    | some (s, .getRequest) => .ended (.doRequest s)
    | some (s, _) => .again .lineOpen s

/-- The condition of the loop. In the body it takes the place of a line, once. -/
def nextLine (line : LineStatus) (s : HttpConn) : HttpConn × LineStatus :=
  if s.checkState = .content ∧ line = .lineOk then (s, line) else s.parseLine

/-- The loop of `process_read`, in at most so many rounds. -/
def processReadLoop : ℕ → LineStatus → HttpConn → ProcessRead
  | 0, _, _ => .running
  | rounds + 1, line, s =>
    match s.nextLine line with
    | (s, .lineOk) =>
      match s.turn with
      | .again line s => processReadLoop rounds line s
      | .ended p => p
    | (s, _) => .noRequest s

/-- **`process_read`**, up to the call of `do_request`. -/
def processRead (s : HttpConn) : ProcessRead := processReadLoop (s.readIdx + 2) .lineOk s

/-! ## What is received -/

/-- What `recv` puts into the buffer. -/
def recv (s : HttpConn) (bytes : Bytes) : HttpConn :=
  { s with
    readBuf := s.readBuf.storeAt s.readIdx bytes
    readIdx := s.readIdx + bytes.length }

/-- **`read_once`**, by what `recv` returns, with as many bytes as there is room
for at most. Undefined where it returns `false` and the connection is closed. -/
def readOnce (s : HttpConn) (bytes : Bytes) : Option HttpConn :=
  if readBufferSize ≤ s.readIdx then none
  else if bytes = [] then none
  else if s.readIdx + bytes.length ≤ readBufferSize then some (s.recv bytes)
  else none

/-- **A connection that is served**: `read_once` and `process_read` for every
`recv`, as long as the request is not complete. Undefined where the connection
was closed, or answered, before all was received. -/
def serve : HttpConn → List Bytes → Option ProcessRead
  | s, [] => some (.noRequest s)
  | s, bytes :: rest =>
    (s.readOnce bytes).bind (fun s =>
      match s.processRead with
      | .noRequest s => s.serve rest
      | p => if rest = [] then some p else none)

end HttpConn

end TinyWeb
