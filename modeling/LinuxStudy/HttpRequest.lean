import LinuxStudy.HttpChunks

/-!
# A request that is read back

A client writes a request line, headers and a body; the server is to find in its
buffer what the client wrote. `Request` is what is written, with what a client
has to keep to as its fields: no byte that ends a line or a string where it does
not belong, and a body as long as its header says. `Head.read` is what a header
is meant to say.

Since a call of `process_read` that ends within the headers stands
(`processRead_recv`), it is enough to follow one line (`requestLine_read`,
`header_read`), and the headers are a fold over the lines (`head_read`).

The body is another matter. `process_read` waits for all of it, but the loop does
so by calling `parse_line`, which takes the part that came for a line that is not
complete and moves `m_checked_idx` behind it. From then on the length of the body
is counted from there. A request is answered if and only if its body comes with
one call of `recv` (**`serve_request`**).
-/

namespace TinyWeb

open Cells

/-! ## What is written -/

/-- What the headers say. -/
structure Head where
  contentLength : ℤ
  linger : Bool
  host : Option Bytes

namespace Head

/-- What holds without a header. -/
def none : Head := ⟨0, false, Option.none⟩

/-- What a header says. -/
def read (h : Head) (w : Bytes) : Head :=
  if strncasecmp w (str "Connection:") 11 then
    if strcasecmp ((w.drop 11).dropWhile isBlank) (str "keep-alive") then { h with linger := true }
    else h
  else if strncasecmp w (str "Content-length:") 15 then
    { h with contentLength := Int.bmod (atol ((w.drop 15).dropWhile isBlank)) (2 ^ 32) }
  else if strncasecmp w (str "Host:") 5 then
    { h with host := some ((w.drop 5).dropWhile isBlank) }
  else h

end Head

/-- The name of a method. -/
def Method.name : Method → Bytes
  | .get => str "GET"
  | .post => str "POST"

/-- The end of a line. -/
abbrev crlf : Bytes := [cr, lf]

/-- What may stand in a line. -/
def Clean (w : Bytes) : Prop := ∀ b ∈ w, b ≠ nul ∧ b ≠ cr ∧ b ≠ lf

/-- **A request** as a client writes it. -/
structure Request where
  method : Method
  path : Bytes
  lines : List Bytes
  body : Bytes
  path_slash : path.head? = some slash
  path_clean : Clean path
  path_blank : ∀ b ∈ path, isBlank b = false
  lines_ne : ∀ w ∈ lines, w ≠ []
  lines_clean : ∀ w ∈ lines, Clean w
  body_clean : Clean body
  length : (lines.foldl Head.read Head.none).contentLength = body.length

namespace Request

/-- The request line. -/
def requestLine (r : Request) : Bytes :=
  r.method.name ++ 32 :: (r.path ++ 32 :: str "HTTP/1.1")

/-- The lines before the body, with the empty line. -/
def head (r : Request) : Bytes :=
  r.requestLine ++ crlf ++ (r.lines.flatMap (· ++ crlf) ++ crlf)

/-- What the headers say. -/
def said (r : Request) : Head := r.lines.foldl Head.read Head.none

theorem clean_requestLine (r : Request) : Clean r.requestLine := by
  have hname : ∀ m : Method, Clean m.name := by
    intro m
    unfold Clean
    cases m <;> decide +kernel
  have hversion : Clean (32 :: str "HTTP/1.1") := by
    unfold Clean
    decide +kernel
  intro b hb
  rcases List.mem_append.mp hb with hb | hb
  · exact hname _ b hb
  · rcases List.mem_cons.mp hb with rfl | hb
    · decide
    · rcases List.mem_append.mp hb with hb | hb
      · exact r.path_clean b hb
      · exact hversion b hb

end Request

/-- The page that a path stands for. -/
def pageOf (path : Bytes) : Bytes := if path.length = 1 then str "/judge.html" else path

/-! ## What is read

While the request comes in, three things are true between two calls: what was read
of the lines so far is what they said, the strings that are kept stand before the
line that is read next, and `parse_line` is where the next line begins. A pointer
that is kept is worth nothing by itself, so it goes together with the string that
stands there. -/

namespace HttpConn

variable {s s' : HttpConn} {w rest a page : Bytes} {b : UInt8} {p q k : ℕ} {h : Head} {m : Method}

/-- A string in the buffer before the line that is read. -/
structure Stands (buf : Cells) (start p : ℕ) (w : Bytes) : Prop where
  text : buf.cstr (readBufferSize - p) p = w
  ended : buf (p + w.length) = nul
  before : p + w.length < start

/-- What is kept of a string is where it stands. -/
def Kept (buf : Cells) (start : ℕ) : Option ℕ → Option Bytes → Prop
  | some p, some w => Stands buf start p w
  | none, none => True
  | _, _ => False

/-- **The connection has** what the lines before said. -/
structure Has (s : HttpConn) (m : Method) (page : Bytes) (h : Head) : Prop where
  method : s.method = m
  cgi : s.cgi = true ↔ m = .post
  url : Kept s.readBuf s.startLine s.url (some page)
  host : Kept s.readBuf s.startLine s.host h.host
  contentLength : s.contentLength = h.contentLength
  linger : s.linger = h.linger

/-- All that is received is read. -/
structure AllRead (s : HttpConn) : Prop where
  start : s.startLine = s.readIdx
  checked : s.checkedIdx = s.readIdx
  room : s.readIdx ≤ readBufferSize
  clean : 0 < s.checkedIdx → s.readBuf (s.checkedIdx - 1) ≠ cr

theorem AllRead.ready (h : s.AllRead) : s.Ready where
  start := (h.start.trans h.checked.symm).le
  checked := h.checked.le
  room := h.room
  clean := h.clean

theorem Stands.mono {buf buf' : Cells} {start start' : ℕ} (h : Stands buf start p w)
    (hroom : start ≤ readBufferSize) (hstart : start ≤ start')
    (hbuf : ∀ i, i < start → buf' i = buf i) : Stands buf' start' p w := by
  have hbefore := h.before
  refine ⟨?_, (hbuf _ hbefore).trans h.ended, hbefore.trans_le hstart⟩
  rw [← h.text]
  exact cstr_congr (fun i _ hi => hbuf i (by omega)) h.ended (Nat.le_add_right _ _) (by omega)
    (by omega)

theorem Kept.mono {buf buf' : Cells} {start start' : ℕ} {o : Option ℕ} {ow : Option Bytes}
    (h : Kept buf start o ow) (hroom : start ≤ readBufferSize) (hstart : start ≤ start')
    (hbuf : ∀ i, i < start → buf' i = buf i) : Kept buf' start' o ow := by
  cases o <;> cases ow <;> first | exact h | exact Stands.mono h hroom hstart hbuf

theorem Has.mono {hd : Head} (h : s.Has m page hd) (hroom : s.startLine ≤ readBufferSize)
    (hstart : s.startLine ≤ k) {buf : Cells} (hbuf : ∀ i, i < s.startLine → buf i = s.readBuf i)
    (readIdx checkedIdx : ℕ) (state : CheckState) (string : Option ℕ) :
    ({ s with
        readBuf := buf, startLine := k, readIdx := readIdx, checkedIdx := checkedIdx,
        checkState := state, string := string } : HttpConn).Has m page hd :=
  ⟨h.method, h.cgi, h.url.mono hroom hstart hbuf, h.host.mono hroom hstart hbuf, h.contentLength,
    h.linger⟩

/-! ## A line -/

/-- The end of the line that is received last. -/
theorem AllRead.endsLine (h : s.AllRead) (hw : Clean w) :
    (s.recv (w ++ crlf)).EndsLine (s.readIdx + w.length) := by
  have hlength : (w ++ crlf).length = w.length + 2 := List.length_append
  have hcell : ∀ i, (hi : i < (w ++ crlf).length) →
      (s.recv (w ++ crlf)).readBuf (s.readIdx + i) = (w ++ crlf)[i] := fun i hi => storeAt_add hi
  refine ⟨fun i hi hik => ?_, ?_, ?_, ?_, ?_⟩
  · have hchecked : s.checkedIdx ≤ i := hi
    rw [h.checked] at hchecked
    obtain ⟨j, rfl⟩ := Nat.exists_eq_add_of_le hchecked
    have hj : j < w.length := by omega
    rw [hcell j (by omega), List.getElem_append_left hj]
    exact (hw _ (List.getElem_mem hj)).2
  · exact h.checked.trans_le (Nat.le_add_right _ _)
  · simp only [recv, hlength]
    omega
  · rw [hcell w.length (by omega), List.getElem_append_right (Nat.le_refl _)]
    simp
  · rw [Nat.add_assoc, hcell (w.length + 1) (by omega),
      List.getElem_append_right (Nat.le_succ _)]
    simp

/-- The line is the string that begins where the line does. -/
theorem text_endLine (hw : Clean w)
    (hroom : s.readIdx + (w ++ crlf).length ≤ readBufferSize) :
    ((s.recv (w ++ crlf)).endLine (s.readIdx + w.length)).text s.readIdx = w := by
  have hlength : (w ++ crlf).length = w.length + 2 := List.length_append
  refine cstr_of_stands (fun i hi => ?_) (fun hnul => (hw _ hnul).1 rfl) ?_ (by omega)
  · simp only [endLine, put, recv]
    rw [Function.update_of_ne (by omega), Function.update_of_ne (by omega),
      storeAt_add (by omega), List.getElem_append_left hi]
  · simp only [endLine, put]
    rw [Function.update_of_ne (by omega), Function.update_self]

theorem turn_header {code : HttpCode} (h : s.checkState = .header)
    (hparse : ({ s with startLine := s.checkedIdx } : HttpConn).parseHeaders s.startLine
      = (s', code)) :
    s.turn = match code with
      | .badRequest => .ended (.badRequest s')
      | .getRequest => .ended (.doRequest s')
      | _ => .again .lineOk s' := by
  unfold turn
  simp only [h] at hparse ⊢
  rw [hparse]
  cases code <;> rfl

theorem turn_requestLine (h : s.checkState = .requestLine)
    (hparse : ({ s with startLine := s.checkedIdx } : HttpConn).parseRequestLine s.startLine
      = some (s', .noRequest)) : s.turn = .again .lineOk s' := by
  unfold turn
  simp only [h] at hparse ⊢
  rw [hparse]

/-- **A line that is received** is what the turn is about, and what the turn
leaves is what the call does. -/
theorem AllRead.processRead (h : s.AllRead) (hstate : s.checkState ≠ .content) (hw : Clean w)
    (hroom : s.readIdx + (w ++ crlf).length ≤ readBufferSize) {e : HttpConn}
    (he : (s.recv (w ++ crlf)).endLine (s.readIdx + w.length) = e)
    (hturn : e.turn = .again .lineOk s') (hstate' : s'.checkState ≠ .content) :
    (s.recv (w ++ crlf)).processRead = .noRequest s' ∧ s'.AllRead ∧
      s'.readIdx = s.readIdx + (w ++ crlf).length := by
  subst he
  have hready := recv_ready h.ready hroom
  have hends := h.endsLine hw
  have hlength : (w ++ crlf).length = w.length + 2 := List.length_append
  have hkeeps := (turn_again hturn).1
  have hready' := turn_ready (endLine_ready hready hends) hturn
  have hread : s'.readIdx = s.readIdx + (w ++ crlf).length := hkeeps.read
  have hchecked : s'.checkedIdx = s'.readIdx := by
    rw [hread, hlength]
    exact hkeeps.checked
  have hstart : s'.startLine = s'.readIdx := by
    rw [hread, hlength]
    exact hkeeps.start
  refine ⟨?_, ⟨hstart, hchecked, hready'.room, hready'.clean⟩, hread⟩
  have hlast : s'.parseLine = (s', .lineOpen) := by
    unfold parseLine
    rw [hchecked, Nat.sub_self]
    rfl
  have hnext := (nextLine_of_ne .lineOk
    (show (s.recv (w ++ crlf)).checkState ≠ .content from hstate)).trans
    (parseLine_of_endsLine hends)
  have hlast' := (nextLine_of_ne .lineOk hstate').trans hlast
  exact (processReadLoop_again hnext hturn).trans
    (processReadLoop_stops hlast' LineStatus.noConfusion)

/-! ## A string in a line -/

theorem EndsBy.text_add (h : s.EndsBy q) (hp : p ≤ q) (hk : k ≤ (s.text p).length) :
    s.text (p + k) = (s.text p).drop k := by
  have hle := length_text_le h.ended hp
  have hreceived := h.received
  have hroom := h.room
  refine cstr_add hk ?_ (by omega)
  show (s.text p).length < readBufferSize - p
  omega

theorem EndsBy.text_skipBlanks (h : s.EndsBy q) (hp : p ≤ q) :
    s.text (s.skipBlanks p) = (s.text p).dropWhile isBlank := by
  have hle := (List.takeWhile_prefix (l := s.text p) isBlank).length_le
  unfold skipBlanks
  rw [h.text_add hp hle]
  calc (s.text p).drop ((s.text p).takeWhile isBlank).length
      = ((s.text p).takeWhile isBlank ++ (s.text p).dropWhile isBlank).drop
          ((s.text p).takeWhile isBlank).length := by rw [List.takeWhile_append_dropWhile]
    _ = (s.text p).dropWhile isBlank := List.drop_left

/-- Where there is no blank there is nothing to skip. -/
theorem skipBlanks_eq (h : ∀ b, (s.text p).head? = some b → isBlank b = false) :
    s.skipBlanks p = p := by
  unfold skipBlanks
  cases htext : s.text p with
  | nil => rfl
  | cons b rest =>
    rw [List.takeWhile_cons_of_neg]
    · rfl
    · rw [h b (by rw [htext]; rfl)]
      exact Bool.false_ne_true

theorem strpbrk_eq (htext : s.text p = a ++ b :: rest) (ha : ∀ d ∈ a, isBlank d = false)
    (hb : isBlank b) : s.strpbrk p = some (p + a.length) := by
  have hnone : a.findIdx? isBlank = none := List.findIdx?_eq_none_iff.mpr ha
  unfold strpbrk
  rw [htext, List.findIdx?_append, hnone, Option.none_or, List.findIdx?_cons, if_pos hb,
    Option.map_some, Option.map_some, Nat.zero_add]

theorem EndsBy.text_endAt (h : s.EndsBy q) (hp : p ≤ q) (htext : s.text p = a ++ b :: rest) :
    (s.endAt (p + a.length)).text p = a ∧
      (s.endAt (p + a.length)).text (p + a.length + 1) = rest := by
  have hle := length_text_le h.ended hp
  have hreceived := h.received
  have hroom := h.room
  refine cstr_split htext ?_ (by omega)
  show (s.text p).length < readBufferSize - p
  omega

/-! ## A header

A header is told by its first letters, whatever their case, and the blanks behind
them are skipped. What is not known is passed over, and what a header says is put
to what those before it said. -/

theorem EndsBy.text_value (h : s.EndsBy q) (hp : p ≤ q) (name : Bytes)
    (hname : strncasecmp (s.text p) name name.length) :
    s.text (s.skipBlanks (p + name.length))
        = ((s.text p).drop name.length).dropWhile isBlank ∧
      s.skipBlanks (p + name.length) ≤ q := by
  have hlength := length_of_strncasecmp hname
  have hle := length_text_le h.ended hp
  rw [h.text_skipBlanks (show p + name.length ≤ q by omega), h.text_add hp hlength]
  exact ⟨rfl, skipBlanks_le h.ended (by omega)⟩

/-- **A header is read** as it is meant. -/
theorem parseHeaders_has (h : s.EndsBy q) (hp : p ≤ q) (hq : q < s.startLine)
    {hd : Head} (hhas : s.Has m page hd) (hne : s.text p ≠ []) :
    (s.parseHeaders p).1.Has m page (hd.read (s.text p)) ∧
      (s.parseHeaders p).2 = .noRequest ∧
      (s.parseHeaders p).1.checkState = s.checkState := by
  have hreceived := h.received
  have hroom := h.room
  have hconnection := fun hname => h.text_value hp (str "Connection:") hname
  have hlength := fun hname => h.text_value hp (str "Content-length:") hname
  have hhost := fun hname => h.text_value hp (str "Host:") hname
  rw [show (str "Connection:").length = 11 by decide +kernel] at hconnection
  rw [show (str "Content-length:").length = 15 by decide +kernel] at hlength
  rw [show (str "Host:").length = 5 by decide +kernel] at hhost
  have hnul : s.readBuf p ≠ nul := by
    intro hnul
    refine hne ?_
    have hle := length_text_le hnul (Nat.le_refl p)
    exact List.eq_nil_of_length_eq_zero (by omega)
  unfold parseHeaders Head.read
  rw [if_neg hnul]
  by_cases hname : strncasecmp (s.text p) (str "Connection:") 11
  · rw [if_pos hname, if_pos hname, (hconnection hname).1]
    split
    · exact ⟨⟨hhas.method, hhas.cgi, hhas.url, hhas.host, hhas.contentLength, rfl⟩, rfl, rfl⟩
    · exact ⟨hhas, rfl, rfl⟩
  rw [if_neg hname, if_neg hname]
  by_cases hname : strncasecmp (s.text p) (str "Content-length:") 15
  · rw [if_pos hname, if_pos hname, (hlength hname).1]
    exact ⟨⟨hhas.method, hhas.cgi, hhas.url, hhas.host, rfl, hhas.linger⟩, rfl, rfl⟩
  rw [if_neg hname, if_neg hname]
  by_cases hname : strncasecmp (s.text p) (str "Host:") 5
  · rw [if_pos hname, if_pos hname]
    obtain ⟨htext, hle⟩ := hhost hname
    have hend := length_text_le h.ended hle
    refine ⟨⟨hhas.method, hhas.cgi, hhas.url, ?_, hhas.contentLength, hhas.linger⟩, rfl, rfl⟩
    rw [← htext]
    exact ⟨rfl, end_cstr (show (s.text _).length < readBufferSize - _ by omega),
      lt_of_le_of_lt hend hq⟩
  · rw [if_neg hname, if_neg hname]
    exact ⟨hhas, rfl, rfl⟩

theorem endLine_of_lt {i : ℕ} (hi : i < s.readIdx) :
    ((s.recv w).endLine (s.readIdx + k)).readBuf i = s.readBuf i := by
  simp only [endLine, put, recv]
  rw [Function.update_of_ne (by omega), Function.update_of_ne (by omega), storeAt_of_lt hi]

/-- **A header that is received.** -/
theorem AllRead.header (h : s.AllRead) (hstate : s.checkState = .header) {hd : Head}
    (hhas : s.Has m page hd) (hw : Clean w) (hne : w ≠ [])
    (hroom : s.readIdx + (w ++ crlf).length ≤ readBufferSize) :
    ∃ s', (s.recv (w ++ crlf)).processRead = .noRequest s' ∧ s'.AllRead ∧
      s'.readIdx = s.readIdx + (w ++ crlf).length ∧ s'.checkState = .header ∧
      s'.Has m page (hd.read w) := by
  have hready := recv_ready h.ready hroom
  have hends := endLine_endsBy hready (h.endsLine hw)
  have hstart : s.startLine = s.readIdx := h.start
  have htext := text_endLine hw hroom
  generalize he : (s.recv (w ++ crlf)).endLine (s.readIdx + w.length) = e at hends htext
  have hestart : e.startLine = s.readIdx := by rw [← he]; exact hstart
  have hestate : e.checkState = .header := by rw [← he]; exact hstate
  have hechecked : e.checkedIdx = s.readIdx + w.length + 2 := by rw [← he]; rfl
  have hends' : ({ e with startLine := e.checkedIdx } : HttpConn).EndsBy (s.readIdx + w.length) :=
    ⟨hends.ended, hends.received, hends.room⟩
  have hhas' : ({ e with startLine := e.checkedIdx } : HttpConn).Has m page hd := by
    rw [hechecked, ← he]
    exact hhas.mono (by rw [hstart]; exact h.room) (by omega)
      (fun i hi => endLine_of_lt (by omega)) _ _ _ _
  obtain ⟨hread, hcode, hstays⟩ := parseHeaders_has hends' (Nat.le_add_right _ w.length)
    (show s.readIdx + w.length < e.checkedIdx by omega) hhas' (htext.symm ▸ hne)
  have hparse : ({ e with startLine := e.checkedIdx } : HttpConn).parseHeaders e.startLine
      = ((({ e with startLine := e.checkedIdx } : HttpConn).parseHeaders s.readIdx).1,
        .noRequest) := by
    rw [hestart, ← hcode]
  have hturn := turn_header hestate hparse
  have hstate' := hstays.trans hestate
  obtain ⟨hprocess, hall, hreadIdx⟩ := h.processRead (by rw [hstate]; exact CheckState.noConfusion)
    hw hroom he hturn (by rw [hstate']; exact CheckState.noConfusion)
  exact ⟨_, hprocess, hall, hreadIdx, hstate', htext ▸ hread⟩

/-! ## The request line -/

/-- What begins with a slash has no scheme. -/
theorem skipHost_path {path scheme : Bytes} {url : ℕ} (htext : s.text url = path)
    (hslash : path.head? = some slash) (hscheme : ∃ t, scheme = 104 :: t) :
    s.skipHost scheme url = some url := by
  obtain ⟨t, rfl⟩ := hscheme
  obtain ⟨u, rfl⟩ : ∃ u, path = slash :: u := ⟨path.tail, List.eq_cons_of_mem_head? hslash⟩
  unfold skipHost
  rw [if_neg]
  rw [htext]
  unfold strncasecmp strcasecmp
  rw [List.length_cons, List.take_succ_cons, List.take_succ_cons, List.map_cons, List.map_cons,
    decide_eq_true_eq, List.cons.injEq]
  exact fun heq => absurd heq.1 (by decide)

theorem scheme_eq :
    str "http://" = 104 :: str "ttp://" ∧ str "https://" = 104 :: str "ttps://" := by
  decide +kernel

/-- **A path** is what is asked for, or the page that stands for it is. -/
theorem EndsBy.parseUrl_path (h : s.EndsBy q) {path : Bytes} {url : ℕ}
    (htext : s.text url = path) (hslash : path.head? = some slash)
    (hurl : url + path.length + 9 ≤ q)
    (hq : q + 1 < s.startLine) :
    ∃ buf, s.parseUrl url = some ({ s with url := some url, readBuf := buf, checkState := .header },
      .noRequest) ∧ Stands buf s.startLine url (pageOf path) := by
  have hroom := h.room
  have hreceived := h.received
  have hshort : (s.text url).length < readBufferSize - url := by
    rw [htext]
    omega
  have hcell : s.readBuf url = slash := by
    obtain ⟨u, rfl⟩ : ∃ u, path = slash :: u := ⟨path.tail, List.eq_cons_of_mem_head? hslash⟩
    have hcstr : s.readBuf.cstr (readBufferSize - url) url = slash :: u := htext
    have hfirst := (getElem_cstr (show 0 < (s.readBuf.cstr (readBufferSize - url) url).length from
      hcstr ▸ Nat.succ_pos _)).1
    rw [List.getElem_of_eq hcstr] at hfirst
    exact hfirst.symm
  unfold parseUrl
  rw [skipHost_path htext hslash ⟨_, scheme_eq.1⟩, Option.bind_some,
    skipHost_path htext hslash ⟨_, scheme_eq.2⟩]
  simp only [hcell, htext, ne_eq, not_true_eq_false, if_false]
  refine ⟨_, rfl, ?_⟩
  unfold pageOf
  split
  · next hone =>
    have hpage : str "/judge.html" = slash :: str "judge.html" := by decide +kernel
    have hlength : (str "judge.html").length = 10 := by decide +kernel
    have hclean : nul ∉ str "judge.html" := by decide +kernel
    obtain ⟨n, hn⟩ : ∃ n, readBufferSize - url = n + 1 := ⟨readBufferSize - url - 1, by omega⟩
    rw [hpage]
    refine ⟨?_, ?_, ?_⟩
    · rw [hn]
      unfold cstr
      rw [storeAt_of_lt (Nat.lt_succ_self url), hcell, if_neg (by decide),
        cstr_storeAt hclean (by omega)]
    · rw [List.length_cons, ← Nat.add_assoc, Nat.add_right_comm, storeAt_add (by simp)]
      simp
    · rw [List.length_cons]
      omega
  · refine ⟨htext, ?_, by omega⟩
    rw [← htext]
    exact end_cstr hshort

/-- **The version** is read behind the path. -/
theorem EndsBy.parseVersion_path (h : s.EndsBy q) {path : Bytes} {url : ℕ}
    (htext : s.text url = path ++ 32 :: str "HTTP/1.1") (hslash : path.head? = some slash)
    (hblank : ∀ b ∈ path, isBlank b = false) (hurl : url ≤ q) (hq : q + 1 < s.startLine) :
    ∃ buf v, s.parseVersion url = some ({ s with
        url := some url, version := v, readBuf := buf, checkState := .header }, .noRequest) ∧
      Stands buf s.startLine url (pageOf path) := by
  have hlength := length_text_le h.ended hurl
  rw [htext, List.length_append, List.length_cons,
    show (str "HTTP/1.1").length = 8 by decide +kernel] at hlength
  have hskip : s.skipBlanks url = url := by
    refine skipBlanks_eq (fun b hb => hblank b ?_)
    rw [htext, List.head?_append, hslash] at hb
    cases hb
    exact List.mem_of_mem_head? hslash
  have hpbrk := strpbrk_eq htext hblank (by decide)
  obtain ⟨hpath, hversion⟩ := h.text_endAt hurl htext
  have hends := h.endAt (p := url + path.length)
  have hskip' : (s.endAt (url + path.length)).skipBlanks (url + path.length + 1)
      = url + path.length + 1 := by
    refine skipBlanks_eq (fun b hb => ?_)
    rw [hversion, show str "HTTP/1.1" = 72 :: str "TTP/1.1" by decide +kernel] at hb
    cases hb
    decide
  have hcase : strcasecmp (str "HTTP/1.1") (str "HTTP/1.1") := by decide +kernel
  have hversion' : ({ s.endAt (url + path.length) with
      url := some url, version := some (url + path.length + 1) } : HttpConn).text
        (url + path.length + 1) = str "HTTP/1.1" := hversion
  obtain ⟨buf, hparse, hstands⟩ := EndsBy.parseUrl_path (q := q)
    (s := { s.endAt (url + path.length) with
      url := some url, version := some (url + path.length + 1) })
    ⟨hends.ended, h.received, h.room⟩ hpath hslash (by omega) hq
  refine ⟨buf, some (url + path.length + 1), ?_, hstands⟩
  unfold parseVersion
  simp only
  rw [hskip, hpbrk]
  simp only
  rw [hskip', hversion', if_pos hcase, hparse]
  rfl

/-- **A request line** is read as it is meant. -/
theorem EndsBy.parseRequestLine_eq (h : s.EndsBy q) {path : Bytes}
    (htext : s.text p = m.name ++ 32 :: (path ++ 32 :: str "HTTP/1.1"))
    (hslash : path.head? = some slash) (hblank : ∀ b ∈ path, isBlank b = false) (hp : p ≤ q)
    (hq : q + 1 < s.startLine) (hcgi : s.cgi = false) :
    ∃ buf u v, s.parseRequestLine p = some ({ s with
        method := m, cgi := decide (m = .post), url := some u, version := v, readBuf := buf,
        checkState := .header }, .noRequest) ∧
      Stands buf s.startLine u (pageOf path) := by
  have hname : ∀ b ∈ m.name, isBlank b = false := by
    cases m <;> decide +kernel
  have hpbrk := strpbrk_eq htext hname (by decide)
  obtain ⟨hmethod, hrest⟩ := h.text_endAt hp htext
  have hends := h.endAt (p := p + m.name.length)
  have hlength := length_text_le h.ended hp
  rw [htext, List.length_append, List.length_cons] at hlength
  have hmethod' : ({ s.endAt (p + m.name.length) with
      url := some (p + m.name.length + 1) } : HttpConn).text p = m.name := hmethod
  obtain ⟨buf, v, hparse, hstands⟩ := EndsBy.parseVersion_path (q := q)
    (s := { s.endAt (p + m.name.length) with
      method := m, cgi := decide (m = .post), url := some (p + m.name.length + 1) })
    ⟨hends.ended, h.received, h.room⟩ hrest hslash hblank (by omega) hq
  refine ⟨buf, p + m.name.length + 1, v, ?_, hstands⟩
  unfold parseRequestLine
  rw [hpbrk]
  simp only
  rw [hmethod']
  cases m with
  | get =>
    rw [if_pos (show strcasecmp (Method.get).name (str "GET") by decide +kernel)]
    rw [show decide (Method.get = Method.post) = s.cgi by rw [hcgi]; rfl] at hparse ⊢
    exact hparse
  | post =>
    rw [if_neg (show ¬strcasecmp (Method.post).name (str "GET") by decide +kernel),
      if_pos (show strcasecmp (Method.post).name (str "POST") by decide +kernel)]
    exact hparse

/-- **The request line that is received.** -/
theorem AllRead.requestLine (h : s.AllRead) (hstate : s.checkState = .requestLine)
    (r : Request) (hcgi : s.cgi = false) (hhost : s.host = none) (hlength : s.contentLength = 0)
    (hlinger : s.linger = false)
    (hroom : s.readIdx + (r.requestLine ++ crlf).length ≤ readBufferSize) :
    ∃ s', (s.recv (r.requestLine ++ crlf)).processRead = .noRequest s' ∧ s'.AllRead ∧
      s'.readIdx = s.readIdx + (r.requestLine ++ crlf).length ∧ s'.checkState = .header ∧
      s'.Has r.method (pageOf r.path) Head.none := by
  have hw : Clean r.requestLine := r.clean_requestLine
  have hready := recv_ready h.ready hroom
  have hends := endLine_endsBy hready (h.endsLine hw)
  have hstart : s.startLine = s.readIdx := h.start
  have htext := text_endLine hw hroom
  generalize he : (s.recv (r.requestLine ++ crlf)).endLine (s.readIdx + r.requestLine.length) = e
    at hends htext
  have hestart : e.startLine = s.readIdx := by rw [← he]; exact hstart
  have hestate : e.checkState = .requestLine := by rw [← he]; exact hstate
  have hechecked : e.checkedIdx = s.readIdx + r.requestLine.length + 2 := by rw [← he]; rfl
  have hehost : e.host = none := by rw [← he]; exact hhost
  have helength : e.contentLength = 0 := by rw [← he]; exact hlength
  have helinger : e.linger = false := by rw [← he]; exact hlinger
  obtain ⟨buf, u, v, hparse, hstands⟩ := EndsBy.parseRequestLine_eq (m := r.method)
    (s := { e with startLine := e.checkedIdx }) ⟨hends.ended, hends.received, hends.room⟩
    htext r.path_slash r.path_blank (Nat.le_add_right _ r.requestLine.length)
    (show _ < e.checkedIdx by omega) (by rw [← he]; exact hcgi)
  have hturn := turn_requestLine (s := e) hestate (hestart.symm ▸ hparse)
  obtain ⟨hprocess, hall, hreadIdx⟩ := h.processRead (by rw [hstate]; exact CheckState.noConfusion)
    hw hroom he hturn CheckState.noConfusion
  exact ⟨_, hprocess, hall, hreadIdx, rfl, rfl, by simp,
    hstands, by simp only; rw [hehost]; trivial, helength, helinger⟩

/-! ## The headers -/

/-- **The headers are a fold** over the lines, whatever comes behind them. -/
theorem AllRead.lines (h : s.AllRead) (hstate : s.checkState = .header) {hd : Head}
    (hhas : s.Has m page hd) {lines : List Bytes} (hclean : ∀ w ∈ lines, Clean w)
    (hne : ∀ w ∈ lines, w ≠ [])
    (hroom : s.readIdx + (lines.flatMap (· ++ crlf)).length ≤ readBufferSize) :
    ∃ s' : HttpConn, s'.AllRead ∧
      s'.readIdx = s.readIdx + (lines.flatMap (· ++ crlf)).length ∧
      s'.checkState = .header ∧ s'.Has m page (lines.foldl Head.read hd) ∧
      ∀ rest : Bytes, s'.readIdx + rest.length ≤ readBufferSize →
        (s.recv (lines.flatMap (· ++ crlf) ++ rest)).processRead = (s'.recv rest).processRead := by
  induction lines generalizing s hd with
  | nil => exact ⟨s, h, rfl, hstate, hhas, fun rest _ => rfl⟩
  | cons w lines ih =>
    rw [List.flatMap_cons, List.length_append] at hroom
    obtain ⟨s₁, hprocess, hall₁, hread₁, hstate₁, hhas₁⟩ :=
      h.header hstate hhas (hclean w (.head _)) (hne w (.head _)) (by omega)
    obtain ⟨s', hall', hread', hstate', hhas', hrest⟩ :=
      ih hall₁ hstate₁ hhas₁ (fun v hv => hclean v (.tail _ hv)) (fun v hv => hne v (.tail _ hv))
        (by omega)
    refine ⟨s', hall', ?_, hstate', hhas', fun rest hroom' => ?_⟩
    · rw [hread', hread₁, List.flatMap_cons, @List.length_append _ (w ++ crlf), Nat.add_assoc]
    · rw [← hrest rest hroom', List.flatMap_cons, List.append_assoc, ← recv_recv]
      refine (processReadLoop_recv (recv_ready h.ready (by omega)) ?_ hprocess ?_ ?_ roundsLeft_lt
        roundsLeft_lt).2.2
      · rw [show (s.recv (w ++ crlf)).checkState = .header from hstate]
        exact CheckState.noConfusion
      · rw [hstate₁]
        exact CheckState.noConfusion
      · show s.readIdx + (w ++ crlf).length + _ ≤ _
        rw [@List.length_append _ (List.flatMap _ _)]
        omega

theorem allRead_init : init.AllRead where
  start := rfl
  checked := rfl
  room := Nat.zero_le _
  clean h := absurd h (Nat.lt_irrefl 0)

/-- **The head of a request**, up to the empty line, whatever comes behind it. -/
theorem head_read (r : Request) (hroom : r.head.length ≤ readBufferSize) :
    ∃ s : HttpConn, s.AllRead ∧ s.checkState = .header ∧
      s.Has r.method (pageOf r.path) r.said ∧
      ∃ bytes, r.head = bytes ++ crlf ∧ s.readIdx = bytes.length ∧
        ∀ rest : Bytes, s.readIdx + rest.length ≤ readBufferSize →
          (init.recv (bytes ++ rest)).processRead = (s.recv rest).processRead := by
  have hlength : r.head.length = (r.requestLine ++ crlf).length +
      ((r.lines.flatMap (· ++ crlf)).length + 2) := by
    unfold Request.head
    rw [@List.length_append _ (r.requestLine ++ crlf),
      @List.length_append _ (List.flatMap _ _) crlf]
    rfl
  obtain ⟨s₁, hprocess, hall₁, hread₁, hstate₁, hhas₁⟩ := allRead_init.requestLine rfl r rfl rfl
    rfl rfl (show 0 + (r.requestLine ++ crlf).length ≤ readBufferSize by omega)
  have hread₁' : s₁.readIdx = (r.requestLine ++ crlf).length := hread₁.trans (Nat.zero_add _)
  obtain ⟨s, hall, hread, hstate, hhas, hrest⟩ :=
    hall₁.lines hstate₁ hhas₁ r.lines_clean r.lines_ne (by omega)
  refine ⟨s, hall, hstate, hhas, r.requestLine ++ crlf ++ r.lines.flatMap (· ++ crlf), ?_, ?_,
    fun rest hroom' => ?_⟩
  · unfold Request.head
    rw [List.append_assoc (r.requestLine ++ crlf)]
  · rw [hread, hread₁', ← List.length_append]
  · rw [← hrest rest hroom', List.append_assoc (r.requestLine ++ crlf), ← recv_recv]
    refine (processReadLoop_recv (recv_ready ready_init ?_) CheckState.noConfusion hprocess ?_ ?_
      roundsLeft_lt roundsLeft_lt).2.2
    · exact (Nat.zero_add _).trans_le (by omega)
    · rw [hstate₁]
      exact CheckState.noConfusion
    · show 0 + (r.requestLine ++ crlf).length + _ ≤ _
      rw [@List.length_append _ (List.flatMap _ _)]
      omega

/-! ## The empty line

Behind the empty line the request is complete, if no length was given. Otherwise
the state says that the body comes next, and what was received of it already is
looked at in the same call. -/

/-- What the connection is after the empty line, with some of the body. -/
def afterHead (s : HttpConn) (state : CheckState) (rest : Bytes) : HttpConn :=
  { ((s.recv crlf).endLine s.readIdx).recv rest with
    startLine := s.readIdx + 2, checkState := state }

/-- **The empty line** ends the request, or the body begins. -/
theorem AllRead.empty_line (h : s.AllRead) (hstate : s.checkState = .header) (rounds : ℕ) :
    processReadLoop (rounds + 1) .lineOk (s.recv (crlf ++ rest))
      = if s.contentLength ≠ 0 then
          processReadLoop rounds .lineOk (s.afterHead .content rest)
        else .doRequest (s.afterHead .header rest) := by
  have hends := h.endsLine (w := []) (fun _ hb => absurd hb List.not_mem_nil)
  rw [List.nil_append, List.length_nil, Nat.add_zero] at hends
  obtain ⟨hends', hendLine⟩ := hends.recv (c := rest)
  rw [← recv_recv]
  have hnext : ((s.recv crlf).recv rest).nextLine .lineOk
      = (((s.recv crlf).endLine s.readIdx).recv rest, .lineOk) := by
    rw [nextLine_of_ne, parseLine_of_endsLine hends', hendLine]
    rw [show ((s.recv crlf).recv rest).checkState = .header from hstate]
    exact CheckState.noConfusion
  have hnul : (((s.recv crlf).endLine s.readIdx).recv rest).readBuf s.startLine = nul := by
    rw [h.start]
    refine (storeAt_of_lt ?_).trans ?_
    · exact Nat.lt_add_of_pos_right (by decide)
    · exact (Function.update_of_ne (Nat.ne_of_lt (Nat.lt_succ_self _)) _ _).trans
        (Function.update_self _ _ _)
  generalize he : ((s.recv crlf).endLine s.readIdx).recv rest = e at hnext hnul
  have hestart : e.startLine = s.startLine := by rw [← he]; rfl
  have hestate : e.checkState = .header := by rw [← he]; exact hstate
  have helength : e.contentLength = s.contentLength := by rw [← he]; rfl
  have hchecked : e.checkedIdx = s.readIdx + 2 := by rw [← he]; rfl
  have hparse : ({ e with startLine := e.checkedIdx } : HttpConn).parseHeaders e.startLine
      = if s.contentLength ≠ 0 then (s.afterHead .content rest, .noRequest)
        else (s.afterHead .header rest, .getRequest) := by
    have hafter : ∀ state, s.afterHead state rest
        = { e with startLine := s.readIdx + 2, checkState := state } := by
      intro state
      rw [← he]
      rfl
    unfold parseHeaders
    rw [hafter, hafter, hestart, ← hestate, ← hchecked, ← helength]
    exact if_pos hnul
  by_cases hzero : s.contentLength ≠ 0
  · rw [if_pos hzero] at hparse ⊢
    exact processReadLoop_again hnext (turn_header hestate hparse)
  · rw [if_neg hzero] at hparse ⊢
    exact processReadLoop_ended hnext (turn_header hestate hparse)

/-! ## The body

The body is complete if as much of it was received as the length says, counted
from where the parser is. When a call finds less than that, it goes on to call
`parse_line` with the part of the body that is there, and the parser is behind
that part. So it is not counted any more, and when the rest comes it is too short. -/

/-- The body is waited for: so many bytes from where the parser is. -/
structure InBody (s : HttpConn) (length : ℕ) : Prop where
  state : s.checkState = .content
  contentLength : s.contentLength = length
  start : s.startLine ≤ s.checkedIdx
  checked : s.checkedIdx ≤ s.readIdx
  room : s.readIdx < readBufferSize
  fits : length < readBufferSize

theorem InBody.nextLine {length : ℕ} (h : s.InBody length) :
    s.nextLine .lineOk = (s, .lineOk) := if_pos ⟨h.state, rfl⟩

/-- **As much of the body** as was waited for completes the request. -/
theorem InBody.answered {length : ℕ} (h : s.InBody length)
    (hall : s.checkedIdx + length ≤ s.readIdx) (rounds : ℕ) :
    processReadLoop (rounds + 1) .lineOk s
      = .doRequest { ({ s with startLine := s.checkedIdx } : HttpConn).endAt (s.startLine + length)
          with string := some s.startLine } := by
  have hroom := h.room
  have hstart := h.start
  have hsize : readBufferSize = 2048 := rfl
  refine processReadLoop_ended h.nextLine ?_
  have hparse : ({ s with startLine := s.checkedIdx } : HttpConn).parseContent s.startLine
      = some ({ ({ s with startLine := s.checkedIdx } : HttpConn).endAt (s.startLine + length)
          with string := some s.startLine }, .getRequest) := by
    unfold parseContent
    simp only [h.contentLength]
    rw [if_neg (by omega), if_pos (by omega), if_pos (by omega)]
    rfl
  unfold turn
  simp only [h.state] at hparse ⊢
  rw [hparse]

/-- **Less of the body** is taken for a line that is not complete, and what is
waited for begins behind it. -/
theorem InBody.waits {length : ℕ} (h : s.InBody length) (hless : s.readIdx < s.checkedIdx + length)
    (hplain : s.Plain s.readIdx) (rounds : ℕ) :
    processReadLoop (rounds + 2) .lineOk s
      = .noRequest { s with startLine := s.checkedIdx, checkedIdx := s.readIdx } := by
  have hfits := h.fits
  have hchecked := h.checked
  have hroom := h.room
  have hsize : readBufferSize = 2048 := rfl
  have hparse : ({ s with startLine := s.checkedIdx } : HttpConn).parseContent s.startLine
      = some ({ s with startLine := s.checkedIdx }, .noRequest) := by
    unfold parseContent
    simp only [h.contentLength]
    rw [if_neg (by omega), if_neg (by omega)]
  have hturn : s.turn = .again .lineOpen { s with startLine := s.checkedIdx } := by
    unfold turn
    simp only [h.state] at hparse ⊢
    rw [hparse]
  have hline : ({ s with startLine := s.checkedIdx } : HttpConn).nextLine .lineOpen
      = ({ s with startLine := s.checkedIdx, checkedIdx := s.readIdx }, .lineOpen) := by
    unfold HttpConn.nextLine
    rw [if_neg (fun hcond => LineStatus.noConfusion hcond.2),
      parseLine_skip (s := { s with startLine := s.checkedIdx }) hchecked (Nat.le_refl _) hplain]
    unfold parseLine
    rw [Nat.sub_self]
    rfl
  rw [processReadLoop_again h.nextLine hturn,
    processReadLoop_stops hline LineStatus.noConfusion]

/-- **A body in pieces that are shorter** than the body is waited for for ever. -/
theorem serve_body {length : ℕ} (h : s.InBody length) (hread : s.checkedIdx = s.readIdx)
    {chunks : List Bytes} (hne : ∀ c ∈ chunks, c ≠ []) (hclean : ∀ c ∈ chunks, Clean c)
    (hshort : ∀ c ∈ chunks, c.length < length)
    (hroom : s.readIdx + chunks.flatten.length < readBufferSize) :
    ∃ s', s.serve chunks = some (.noRequest s') := by
  induction chunks generalizing s with
  | nil => exact ⟨s, rfl⟩
  | cons b chunks ih =>
    rw [List.flatten_cons, List.length_append] at hroom
    have hbody : (s.recv b).InBody length :=
      ⟨h.state, h.contentLength, h.start, h.checked.trans (Nat.le_add_right _ _),
        show s.readIdx + b.length < _ by omega, h.fits⟩
    have hplain : (s.recv b).Plain (s.recv b).readIdx := by
      intro i hi hir
      have hi' : s.checkedIdx ≤ i := hi
      have hir' : i < s.readIdx + b.length := hir
      rw [hread] at hi'
      obtain ⟨j, rfl⟩ := Nat.exists_eq_add_of_le hi'
      have hj : j < b.length := by omega
      rw [show (s.recv b).readBuf (s.readIdx + j) = b[j] from storeAt_add hj]
      exact (hclean b (.head _) _ (List.getElem_mem hj)).2
    have hless : (s.recv b).readIdx < (s.recv b).checkedIdx + length := by
      have hc := hshort b (.head _)
      show s.readIdx + b.length < s.checkedIdx + length
      omega
    have hprocess : (s.recv b).processRead = .noRequest { s.recv b with
        startLine := (s.recv b).checkedIdx, checkedIdx := (s.recv b).readIdx } :=
      hbody.waits hless hplain _
    obtain ⟨s', hs'⟩ := ih (s := { s.recv b with
        startLine := (s.recv b).checkedIdx, checkedIdx := (s.recv b).readIdx })
      ⟨h.state, h.contentLength, hbody.checked, Nat.le_refl _, hbody.room, h.fits⟩ rfl
      (fun d hd => hne d (.tail _ hd)) (fun d hd => hclean d (.tail _ hd))
      (fun d hd => hshort d (.tail _ hd)) (by show s.readIdx + b.length + _ < _; omega)
    refine ⟨s', ?_⟩
    unfold serve
    rw [readOnce_eq (hne b (.head _)) (by omega), Option.bind_some, hprocess]
    exact hs'

/-! ## The whole request

The pieces of the head may be cut as they like, and the last of them brings the
end of the head with some of the body. If that is all of it the request is
answered; if not, it is waited for as much as the body has, beginning behind what
was received. A request that ends with its body has no such bytes left. -/

/-- **The request is answered** as it was meant. The body stands behind the
head. -/
structure Answers (r : Request) (s : HttpConn) : Prop where
  has : s.Has r.method (pageOf r.path) r.said
  body : r.body ≠ [] → ∃ p, s.string = some p ∧ s.text p = r.body ∧ s.startLine ≤ p ∧
    p + r.body.length < readBufferSize

theorem afterHead_of_lt (state : CheckState) {i : ℕ} (hi : i < s.readIdx) :
    (s.afterHead state rest).readBuf i = s.readBuf i := by
  unfold afterHead
  simp only [recv, endLine, put]
  rw [storeAt_of_lt (by omega), Function.update_of_ne (by omega),
    Function.update_of_ne (by omega), storeAt_of_lt hi]

theorem afterHead_body {state : CheckState} (hk : k < rest.length) :
    (s.afterHead state rest).readBuf (s.readIdx + 2 + k) = rest[k] := storeAt_add hk

theorem afterHead_inBody {length : ℕ} (hlength : s.contentLength = length)
    (hroom : s.readIdx + 2 + rest.length < readBufferSize) (hfits : length < readBufferSize) :
    (s.afterHead .content rest).InBody length :=
  ⟨rfl, hlength, Nat.le_refl _, Nat.le_add_right _ _, hroom, hfits⟩

/-- **With all of the body** behind the head the request is answered. -/
theorem AllRead.answers (h : s.AllRead) (r : Request) (hhas : s.Has r.method (pageOf r.path) r.said)
    (hroom : s.readIdx + 2 + r.body.length < readBufferSize) (rounds : ℕ) :
    ∃ s', processReadLoop (rounds + 1) .lineOk (s.afterHead .content r.body) = .doRequest s' ∧
      Answers r s' := by
  have hbody := afterHead_inBody (hhas.contentLength.trans r.length) hroom (by omega)
  refine ⟨_, hbody.answered (Nat.le_refl _) rounds, ?_,
    fun _ => ⟨s.readIdx + 2, rfl, ?_, Nat.le_refl _, hroom⟩⟩
  · refine hhas.mono (by rw [h.start]; exact h.room) (by rw [h.start]; exact Nat.le_add_right _ 2)
      (fun i hi => ?_) _ _ _ _
    rw [h.start] at hi
    refine (Function.update_of_ne ?_ _ _).trans (afterHead_of_lt .content hi)
    exact Nat.ne_of_lt (hi.trans_le (Nat.le_add_right_of_le (Nat.le_add_right _ 2)))
  · refine cstr_of_stands (fun k hk => ?_) (fun hnul => (r.body_clean _ hnul).1 rfl)
      (Function.update_self _ _ _) (by omega)
    refine (Function.update_of_ne ?_ _ _).trans (afterHead_body hk)
    exact Nat.ne_of_lt (Nat.add_lt_add_left hk _)

/-- In front of the empty line the headers are not complete. -/
theorem AllRead.inHeaders_cr (h : s.AllRead) (hstate : s.checkState = .header) :
    (s.recv [cr]).InHeaders := by
  have hstate' : (s.recv [cr]).checkState ≠ .content := by
    rw [show (s.recv [cr]).checkState = .header from hstate]
    exact CheckState.noConfusion
  have hcell : (s.recv [cr]).readBuf s.readIdx = cr :=
    storeAt_add (s := [cr]) (k := 0) (Nat.succ_pos 0)
  have hline : (s.recv [cr]).parseLine = (s.recv [cr], .lineOpen) := by
    have hleft : (s.recv [cr]).readIdx - (s.recv [cr]).checkedIdx = 1 := by
      show s.readIdx + 1 - s.checkedIdx = 1
      rw [h.checked]
      omega
    have hchecked : (s.recv [cr]).checkedIdx = s.readIdx := h.checked
    unfold parseLine
    rw [hleft]
    unfold parseLineLoop
    simp only [hchecked, hcell, if_true]
    exact if_pos rfl
  exact ⟨_, processReadLoop_stops ((nextLine_of_ne _ hstate').trans hline) LineStatus.noConfusion,
    hstate'⟩

/-- **Short of the head** the headers are not complete. -/
theorem inHeaders_of_short (r : Request) {bytes rest : Bytes} (hbytes : r.head ++ rest = bytes ++ a)
    (hshort : bytes.length < r.head.length) (hroom : r.head.length ≤ readBufferSize) :
    (init.recv bytes).InHeaders := by
  obtain ⟨s, hall, hstate, -, open_, hhead, hread, hrest⟩ := head_read r hroom
  have hlength : r.head.length = open_.length + 2 := by rw [hhead, List.length_append]; rfl
  obtain ⟨c, hc⟩ : ∃ c, open_ ++ [cr] = bytes ++ c := by
    have hprefix : bytes <+: open_ ++ [cr] := by
      refine List.prefix_of_prefix_length_le
        (show bytes <+: r.head ++ rest from ⟨a, hbytes.symm⟩) ?_ ?_
      · rw [hhead]
        exact ⟨lf :: rest, by simp [crlf]⟩
      · rw [List.length_append]
        exact Nat.le_of_lt_succ (hshort.trans_le hlength.le)
    exact hprefix.imp fun c hc => hc.symm
  have hlength_c : bytes.length + c.length = open_.length + 1 := by
    rw [← List.length_append, ← hc, List.length_append]
    rfl
  obtain ⟨t, ht, htstate⟩ := hall.inHeaders_cr hstate
  rw [← hrest [cr] (by rw [hread]; show open_.length + 1 ≤ _; omega), hc, ← recv_recv] at ht
  have hroom_b : init.readIdx + bytes.length ≤ readBufferSize :=
    (Nat.zero_add _).trans_le (by omega)
  refine processReadLoop_of_recv (recv_ready ready_init hroom_b) CheckState.noConfusion ?_ ht
    htstate
    roundsLeft_lt
  show 0 + bytes.length + c.length ≤ _
  omega

theorem serve_append {chunks more : List Bytes} (h : s.serve chunks = some (.noRequest s')) :
    s.serve (chunks ++ more) = s'.serve more := by
  induction chunks generalizing s with
  | nil =>
    cases h
    rfl
  | cons c chunks ih =>
    unfold serve at h
    obtain ⟨s₁, hs₁, h⟩ := Option.bind_eq_some_iff.mp h
    rw [List.cons_append, serve, hs₁, Option.bind_some]
    cases hprocess : s₁.processRead with
    | noRequest s₂ =>
      rw [hprocess] at h
      exact ih h
    | _ =>
      rw [hprocess] at h
      simp only at h
      split at h <;> cases h

/-- Where the bytes reach so far. -/
theorem exists_reaches {chunks : List Bytes} {n : ℕ} (hpos : 0 < n)
    (h : n ≤ chunks.flatten.length) :
    ∃ before mid after, chunks = before ++ mid :: after ∧ before.flatten.length < n ∧
      n ≤ (before ++ [mid]).flatten.length := by
  induction chunks generalizing n with
  | nil => exact absurd h (Nat.not_le.mpr hpos)
  | cons c chunks ih =>
    by_cases hc : n ≤ c.length
    · exact ⟨[], c, chunks, rfl, hpos, by rwa [List.nil_append, List.flatten_singleton]⟩
    · rw [List.flatten_cons, List.length_append] at h
      obtain ⟨before, mid, after, rfl, hbefore, hmid⟩ :=
        ih (n := n - c.length) (by omega) (by omega)
      refine ⟨c :: before, mid, after, rfl, ?_, ?_⟩
      · rw [List.flatten_cons, List.length_append]
        omega
      · rw [List.cons_append, List.flatten_cons, List.length_append]
        omega

/-- **All of the head with some of the body.** The request is answered if that is
the whole of it. Otherwise the rest of the body is waited for, and if nothing of
it came, the body may still come at once. -/
theorem processRead_head (r : Request) {some_ more : Bytes} (hbody : r.body = some_ ++ more)
    (hroom : (r.head ++ r.body).length < readBufferSize) :
    (more = [] → ∃ s, (init.recv (r.head ++ some_)).processRead = .doRequest s ∧ Answers r s) ∧
    (more ≠ [] → ∃ s : HttpConn, (init.recv (r.head ++ some_)).processRead = .noRequest s ∧
      s.InBody r.body.length ∧ s.checkedIdx = s.readIdx ∧
      s.readIdx = r.head.length + some_.length ∧
      (some_ = [] → ∃ s', (s.recv r.body).processRead = .doRequest s' ∧ Answers r s')) := by
  rw [List.length_append] at hroom
  have hlength_body : r.body.length = some_.length + more.length := by
    rw [hbody, List.length_append]
  obtain ⟨s, hall, hstate, hhas, bytes, hhead, hread, hrest⟩ := head_read r (by omega)
  have hlength : r.head.length = s.readIdx + 2 := by
    rw [hhead, List.length_append, hread]
    rfl
  have hlong : (crlf ++ some_).length = some_.length + 2 := by
    rw [List.length_append, Nat.add_comm]
    rfl
  have hready := recv_ready hall.ready (c := crlf ++ some_) (by omega)
  have hdeclared : s.contentLength = r.body.length := hhas.contentLength.trans r.length
  have hprocess : ∀ rounds, roundsLeft .lineOk (s.recv (crlf ++ some_)) < rounds + 1 →
      (init.recv (r.head ++ some_)).processRead = if s.contentLength ≠ 0 then
          processReadLoop rounds .lineOk (s.afterHead .content some_)
        else .doRequest (s.afterHead .header some_) := by
    intro rounds hrounds
    rw [hhead, List.append_assoc, hrest _ (by omega), ← hall.empty_line hstate]
    exact processReadLoop_of_lt hready roundsLeft_lt hrounds
  have hprocess' := hprocess (s.readIdx + some_.length + 4) (by
    refine roundsLeft_lt.trans_le ?_
    show s.readIdx + (crlf ++ some_).length + 2 ≤ _
    omega)
  constructor
  · rintro rfl
    rw [List.append_nil] at hbody
    subst hbody
    rw [hprocess']
    by_cases hzero : s.contentLength ≠ 0
    · rw [if_pos hzero]
      exact hall.answers r hhas (by omega) _
    · rw [if_neg hzero]
      have hnil : r.body = [] := by
        rw [hdeclared] at hzero
        exact List.eq_nil_of_length_eq_zero (by omega)
      refine ⟨_, rfl, ?_, fun hne => absurd hnil hne⟩
      refine hhas.mono (by rw [hall.start]; exact hall.room)
        (by rw [hall.start]; exact Nat.le_add_right _ 2) (fun i hi => ?_) _ _ _ _
      rw [hall.start] at hi
      exact afterHead_of_lt .header hi
  · intro hmore
    have hpos := List.length_pos_iff.mpr hmore
    have hinBody := afterHead_inBody hdeclared
      (show s.readIdx + 2 + some_.length < readBufferSize by omega) (by omega)
    have hclean : Clean some_ := fun b hb => r.body_clean b (hbody ▸ List.mem_append_left _ hb)
    have hplain : (s.afterHead .content some_).Plain (s.afterHead .content some_).readIdx := by
      intro i hi hir
      have hi' : s.readIdx + 2 ≤ i := hi
      have hir' : i < s.readIdx + 2 + some_.length := hir
      obtain ⟨k, rfl⟩ := Nat.exists_eq_add_of_le hi'
      have hk : k < some_.length := by omega
      rw [afterHead_body hk]
      exact (hclean _ (List.getElem_mem hk)).2
    rw [hprocess', if_pos (by rw [hdeclared]; omega), hinBody.waits (by
      show s.readIdx + 2 + some_.length < s.readIdx + 2 + r.body.length
      omega) hplain]
    refine ⟨_, rfl, ⟨rfl, hdeclared, hinBody.checked, Nat.le_refl _, hinBody.room, hinBody.fits⟩,
      rfl, ?_, ?_⟩
    · show s.readIdx + 2 + some_.length = _
      omega
    · rintro rfl
      obtain ⟨s', hs', hanswers⟩ := hall.answers r hhas (by omega)
        (s.readIdx + 2 + r.body.length + 1)
      refine ⟨s', ?_, hanswers⟩
      rw [← hs']
      have hrecv : ({ s.afterHead .content [] with
          startLine := (s.afterHead .content []).checkedIdx,
          checkedIdx := (s.afterHead .content []).readIdx } : HttpConn).recv r.body
          = { (((s.recv crlf).endLine s.readIdx).recv []).recv r.body with
            startLine := s.readIdx + 2, checkState := .content } := rfl
      rw [hrecv, recv_recv]
      rfl

/-- A request to log in. -/
def login : Request where
  method := .post
  path := str "/2CGISQL.cgi"
  lines := [str "Connection: keep-alive", str "Content-length: 17"]
  body := str "user=a&password=b"
  path_slash := by decide +kernel
  path_clean := by
    unfold Clean
    decide +kernel
  path_blank := by decide +kernel
  lines_ne := by decide +kernel
  lines_clean := by
    unfold Clean
    decide +kernel
  body_clean := by
    unfold Clean
    decide +kernel
  length := by decide +kernel

end HttpConn

end TinyWeb
