import LinuxStudy.HttpRequest

/-!
# The answer

`process_write` puts a status line and headers into the write buffer, and hands
`write` two pieces of memory to send: the buffer, and the file that is mapped.
What a client reads in the headers is what follows them
(`processWrite_spec`), with the reader of headers of the server itself.
-/

namespace TinyWeb

open HttpConn

/-! ## What is written

`add_response` writes behind what is there, and fails if the text does not fit
into what is left of the buffer. The texts of the headers are short, and the two
numbers among them are `int`s; so there is room for all of them, and the failures
of the program do not come about. -/

/-- `WRITE_BUFFER_SIZE`. -/
abbrev writeBufferSize : ℕ := 1024

/-- `add_response`, with the text that the format gives: the buffer, and whether
there was room. -/
def addResponse (buf text : Bytes) : Bytes × Bool :=
  if writeBufferSize ≤ buf.length then (buf, false)
  else if writeBufferSize - 1 - buf.length ≤ text.length then (buf, false)
  else (buf ++ text, true)

/-- `add_status_line`. -/
def addStatusLine (buf : Bytes) (status : ℕ) (title : Bytes) : Bytes :=
  (addResponse buf (str "HTTP/1.1 " ++ decimal status ++ str " " ++ title ++ crlf)).1

/-- `%d`. -/
def formatInt (n : ℤ) : Bytes := if n < 0 then str "-" ++ decimal n.natAbs else decimal n.natAbs

/-- `add_content_length`. -/
def addContentLength (buf : Bytes) (length : ℤ) : Bytes :=
  (addResponse buf (str "Content-Length:" ++ formatInt length ++ crlf)).1

/-- `add_linger`. -/
def addLinger (buf : Bytes) (linger : Bool) : Bytes :=
  (addResponse buf (str "Connection:" ++ (if linger then str "keep-alive" else str "close")
    ++ crlf)).1

/-- `add_blank_line`. -/
def addBlankLine (buf : Bytes) : Bytes := (addResponse buf crlf).1

/-- `add_headers`. -/
def addHeaders (buf : Bytes) (linger : Bool) (length : ℤ) : Bytes :=
  addBlankLine (addLinger (addContentLength buf length) linger)

/-- `add_content`. -/
def addContent (buf content : Bytes) : Bytes × Bool := addResponse buf content

/-- What `write` is handed: the buffer, and the file if there is one. -/
structure Answer where
  writeBuf : Bytes
  file : Bytes
  ivCount : ℕ
  deriving DecidableEq

/-- The answer with a text of its own. -/
def errorAnswer (linger : Bool) (status : ℕ) (title form : Bytes) : Option Answer :=
  match addContent (addHeaders (addStatusLine [] status title) linger form.length) form with
  | (_, false) => none
  | (buf, true) => some ⟨buf, [], 1⟩

/-- **`process_write`**, undefined where it returns `false`. The case of a file
without contents goes on into the default one, and the length of a file is
converted to `int`. -/
def processWrite (linger : Bool) (file : Bytes) : HttpCode → Option Answer
  | .internalError => errorAnswer linger 500 (str "Internal Error")
      (str "There was an unusual problem serving the request file.\n")
  | .badRequest => errorAnswer linger 404 (str "Not Found")
      (str "The requested file was not found on this server.\n")
  | .forbiddenRequest => errorAnswer linger 403 (str "Forbidden")
      (str "You do not have permission to get file form this server.\n")
  | .fileRequest =>
    if file ≠ [] then
      some ⟨addHeaders (addStatusLine [] 200 (str "OK")) linger (Int.bmod file.length (2 ^ 32)),
        file, 2⟩
    else none
  | _ => none

/-! ## What is read of it

The headers are read with the reader that the server has for those of a request:
the length is what follows `Content-Length:` as a number, and the connection is
kept if the word behind `Connection:` says so. So what is said of an answer is
said in terms of what a client of the same kind makes of it, and not in terms of
its text. -/

/-- The headers of an answer. -/
def answerHeaders (linger : Bool) (length : ℕ) : List Bytes :=
  [str "Content-Length:" ++ decimal length,
    str "Connection:" ++ if linger then str "keep-alive" else str "close"]

theorem addResponse_eq {buf text : Bytes} (h : buf.length + text.length < writeBufferSize - 1) :
    addResponse buf text = (buf ++ text, true) := by
  unfold addResponse
  rw [if_neg (by omega), if_neg (by omega)]

theorem formatInt_natCast (n : ℕ) : formatInt n = decimal n := by
  unfold formatInt
  rw [if_neg (by omega), Int.natAbs_natCast]

/-- The headers fit. -/
theorem addHeaders_eq {buf : Bytes} (hbuf : buf.length ≤ 100) (linger : Bool) {length : ℕ}
    (hlength : length < 2 ^ 31) :
    addHeaders buf linger length =
        buf ++ (answerHeaders linger length).flatMap (· ++ crlf) ++ crlf ∧
      (addHeaders buf linger length).length ≤ 200 := by
  have hdigits : (decimal length).length ≤ 10 :=
    (length_decimal_le_iff (by decide)).mpr (hlength.trans (by decide))
  have hname : (str "Content-Length:").length = 15 := by decide +kernel
  have hvalue : (str "Connection:" ++ if linger then str "keep-alive" else str "close").length
      ≤ 21 := by
    cases linger <;> decide +kernel
  have hcrlf : crlf.length = 2 := rfl
  have hsize : writeBufferSize = 1024 := rfl
  have hfirst : (str "Content-Length:" ++ decimal length ++ crlf).length ≤ 27 := by
    rw [List.length_append, List.length_append]
    omega
  have hsecond : (str "Connection:" ++ (if linger then str "keep-alive" else str "close")
      ++ crlf).length ≤ 23 := by
    rw [List.length_append]
    omega
  unfold addHeaders addContentLength
  rw [formatInt_natCast, addResponse_eq (by omega)]
  unfold addLinger
  rw [addResponse_eq (by rw [List.length_append]; omega)]
  unfold addBlankLine
  rw [addResponse_eq (by rw [List.length_append, List.length_append]; omega)]
  constructor
  · simp [answerHeaders]
  · rw [List.length_append, List.length_append, List.length_append]
    omega

theorem strncasecmp_append {u x t : Bytes} {n : ℕ} (h : n ≤ u.length) :
    strncasecmp (u ++ x) t n = strncasecmp u t n := by
  unfold strncasecmp
  rw [List.take_append_of_le_length h]

theorem atol_decimal {n : ℕ} (hn : n < 2 ^ 31) : Int.bmod (atol (decimal n)) (2 ^ 32) = n := by
  unfold atol
  rw [atoi_decimal, Int.bmod_eq_of_le] <;> omega

theorem dropWhile_decimal (n : ℕ) : (decimal n).dropWhile isBlank = decimal n := by
  refine List.dropWhile_eq_self_iff.mpr (fun hpos hblank => ?_)
  have hdigit := isDigit_of_mem_decimal (List.getElem_mem hpos)
  rcases of_decide_eq_true hblank with heq | heq <;>
    · rw [heq] at hdigit
      exact absurd hdigit (by decide)

/-- **The headers are read back** by the reader of headers. -/
theorem answerHeaders_read (linger : Bool) {length : ℕ} (hlength : length < 2 ^ 31) :
    (answerHeaders linger length).foldl Head.read Head.none = ⟨length, linger, none⟩ := by
  have hone : Head.none.read (str "Content-Length:" ++ decimal length)
      = ⟨length, false, none⟩ := by
    unfold Head.read
    rw [strncasecmp_append (by decide +kernel), strncasecmp_append (by decide +kernel),
      if_neg (by decide +kernel), if_pos (by decide +kernel),
      show 15 = (str "Content-Length:").length by decide +kernel, List.drop_left,
      dropWhile_decimal, atol_decimal hlength]
    rfl
  unfold answerHeaders
  rw [List.foldl_cons, hone, List.foldl_cons, List.foldl_nil]
  unfold Head.read
  cases linger
  · rw [if_pos (by decide +kernel), if_neg (by decide +kernel)]
  · rw [if_pos (by decide +kernel), if_pos (by decide +kernel)]

/-- The answer says what follows: a status line, headers, an empty line and the
body. -/
structure ReadsBack (linger : Bool) (bytes body : Bytes) : Prop where
  lines : ∃ status, Clean status ∧ bytes = status ++ crlf
      ++ (answerHeaders linger body.length).flatMap (· ++ crlf) ++ crlf ++ body
  read : (answerHeaders linger body.length).foldl Head.read Head.none = ⟨body.length, linger, none⟩

theorem Clean.append {u v : Bytes} (hu : Clean u) (hv : Clean v) : Clean (u ++ v) := fun b hb =>
  (List.mem_append.mp hb).elim (hu b) (hv b)

theorem clean_decimal (n : ℕ) : Clean (decimal n) := by
  intro b hb
  have hdigit := isDigit_of_mem_decimal hb
  refine ⟨?_, ?_, ?_⟩ <;>
    · rintro rfl
      exact absurd hdigit (by decide)

/-- The status line with headers behind it. -/
theorem addHeaders_status (linger : Bool) (status : ℕ) (title : Bytes) {length : ℕ}
    (hstatus : (str "HTTP/1.1 " ++ decimal status ++ str " " ++ title).length ≤ 98)
    (htitle : Clean title) (hlength : length < 2 ^ 31) :
    (addHeaders (addStatusLine [] status title) linger length).length ≤ 200 ∧
      ∃ line, Clean line ∧ addHeaders (addStatusLine [] status title) linger length
        = line ++ crlf ++ (answerHeaders linger length).flatMap (· ++ crlf) ++ crlf := by
  have hsize : writeBufferSize = 1024 := rfl
  have hcrlf : crlf.length = 2 := rfl
  have hline : addStatusLine [] status title
      = str "HTTP/1.1 " ++ decimal status ++ str " " ++ title ++ crlf := by
    unfold addStatusLine
    rw [addResponse_eq, List.nil_append]
    rw [List.length_nil, @List.length_append _ _ crlf]
    omega
  have hshort : (addStatusLine [] status title).length ≤ 100 := by
    rw [hline, @List.length_append _ _ crlf]
    omega
  have hversion : Clean (str "HTTP/1.1 ") ∧ Clean (str " ") := by
    unfold Clean
    decide +kernel
  obtain ⟨heq, hle⟩ := addHeaders_eq hshort linger hlength
  refine ⟨hle, str "HTTP/1.1 " ++ decimal status ++ str " " ++ title, ?_, ?_⟩
  · exact ((hversion.1.append (clean_decimal status)).append hversion.2).append htitle
  · rw [heq, hline]

/-- An answer with a text of its own. -/
theorem errorAnswer_readsBack (linger : Bool) {status : ℕ} {title form : Bytes}
    (hstatus : (str "HTTP/1.1 " ++ decimal status ++ str " " ++ title).length ≤ 98)
    (htitle : Clean title) (hform : form.length ≤ 100) :
    ∃ a, errorAnswer linger status title form = some a ∧ a.file = [] ∧ a.ivCount = 1 ∧
      ReadsBack linger a.writeBuf form ∧ 0 < a.writeBuf.length ∧ a.writeBuf.length ≤ 300 := by
  have hsize : writeBufferSize = 1024 := rfl
  have hfits : form.length < 2 ^ 31 := hform.trans_lt (by decide)
  obtain ⟨hle, line, hclean, heq⟩ := addHeaders_status linger _ _ hstatus htitle hfits
  unfold errorAnswer addContent
  rw [addResponse_eq (by omega)]
  refine ⟨_, rfl, rfl, rfl, ⟨⟨line, hclean, by rw [heq]⟩, answerHeaders_read linger hfits⟩, ?_, ?_⟩
  · show 0 < (_ ++ form).length
    rw [heq]
    simp
  · show (_ ++ form).length ≤ 300
    rw [List.length_append]
    omega

/-- **What is answered, and that it reads back.** There is an answer for an
internal error, a bad request, a forbidden file and a file with contents, and for
nothing else: for a file that does not exist there is none. Every answer is a
status line, headers and a body, as long as the headers say. -/
theorem processWrite_spec (linger : Bool) {file : Bytes} (hfile : file.length < 2 ^ 31)
    (code : HttpCode) :
    ((processWrite linger file code).isSome ↔ code = .internalError ∨ code = .badRequest ∨
      code = .forbiddenRequest ∨ code = .fileRequest ∧ file ≠ []) ∧
    ∀ a, processWrite linger file code = some a →
      ∃ body, ReadsBack linger (a.writeBuf ++ a.file) body ∧
        0 < a.writeBuf.length ∧ a.writeBuf.length ≤ 300 ∧
        (code = .fileRequest → body = file ∧ a.file = file ∧ a.ivCount = 2) ∧
        (code ≠ .fileRequest → a.file = [] ∧ a.ivCount = 1) := by
  have herror : ∀ (status : ℕ) (title form : Bytes),
      processWrite linger file code = errorAnswer linger status title form →
      (str "HTTP/1.1 " ++ decimal status ++ str " " ++ title).length ≤ 98 → Clean title →
      form.length ≤ 100 → (processWrite linger file code).isSome ∧
        ∀ a, processWrite linger file code = some a →
          (ReadsBack linger (a.writeBuf ++ a.file) form ∧
            0 < a.writeBuf.length ∧ a.writeBuf.length ≤ 300) ∧ a.file = [] ∧ a.ivCount = 1 := by
    intro status title form hprocess hstatus htitle hform
    obtain ⟨a, ha, hnone, hcount, hreads, hlength⟩ :=
      errorAnswer_readsBack linger hstatus htitle hform
    rw [hprocess, ha]
    refine ⟨rfl, fun b hb => ?_⟩
    cases hb
    rw [hnone, List.append_nil]
    exact ⟨⟨hreads, hlength⟩, rfl, hcount⟩
  cases code with
  | noRequest => exact ⟨by simp [processWrite], fun a ha => by simp [processWrite] at ha⟩
  | getRequest => exact ⟨by simp [processWrite], fun a ha => by simp [processWrite] at ha⟩
  | noResource => exact ⟨by simp [processWrite], fun a ha => by simp [processWrite] at ha⟩
  | closedConnection => exact ⟨by simp [processWrite], fun a ha => by simp [processWrite] at ha⟩
  | internalError =>
    obtain ⟨hsome, hall⟩ := herror 500 (str "Internal Error")
      (str "There was an unusual problem serving the request file.\n") rfl (by decide +kernel)
      (by unfold Clean; decide +kernel) (by decide +kernel)
    exact ⟨by simp [hsome], fun a ha => 
      ⟨_, (hall a ha).1.1, (hall a ha).1.2.1, (hall a ha).1.2.2, by simp, fun _ => (hall a ha).2⟩⟩
  | badRequest =>
    obtain ⟨hsome, hall⟩ := herror 404 (str "Not Found")
      (str "The requested file was not found on this server.\n") rfl (by decide +kernel)
      (by unfold Clean; decide +kernel) (by decide +kernel)
    exact ⟨by simp [hsome], fun a ha => 
      ⟨_, (hall a ha).1.1, (hall a ha).1.2.1, (hall a ha).1.2.2, by simp, fun _ => (hall a ha).2⟩⟩
  | forbiddenRequest =>
    obtain ⟨hsome, hall⟩ := herror 403 (str "Forbidden")
      (str "You do not have permission to get file form this server.\n") rfl (by decide +kernel)
      (by unfold Clean; decide +kernel) (by decide +kernel)
    exact ⟨by simp [hsome], fun a ha => 
      ⟨_, (hall a ha).1.1, (hall a ha).1.2.1, (hall a ha).1.2.2, by simp, fun _ => (hall a ha).2⟩⟩
  | fileRequest =>
    by_cases hne : file ≠ []
    · have hbmod : Int.bmod (file.length : ℤ) (2 ^ 32) = file.length := by
        rw [Int.bmod_eq_of_le] <;> omega
      obtain ⟨hle, line, hclean, heq⟩ := addHeaders_status linger 200 (str "OK")
        (by decide +kernel) (by unfold Clean; decide +kernel) hfile
      have hprocess : processWrite linger file .fileRequest
          = some ⟨addHeaders (addStatusLine [] 200 (str "OK")) linger file.length, file, 2⟩ := by
        rw [processWrite, if_pos hne, hbmod]
      rw [hprocess]
      refine ⟨by simp [hne], fun a ha => ?_⟩
      cases ha
      exact ⟨file, ⟨⟨line, hclean, by rw [heq]⟩, answerHeaders_read linger hfile⟩,
        by rw [heq]; simp, hle.trans (by decide), fun _ => ⟨rfl, rfl, rfl⟩,
        fun hcode => absurd rfl hcode⟩
    · have hprocess : processWrite linger file .fileRequest = none := by
        rw [processWrite, if_neg hne]
      rw [hprocess]
      exact ⟨by simp [hne], fun a ha => by cases ha⟩

end TinyWeb
