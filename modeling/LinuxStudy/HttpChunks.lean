import LinuxStudy.HttpConn

/-!
# A request in pieces

A stream has no message boundaries: the bytes of a request may come with any
number of calls of `recv`, cut anywhere, in the middle of a line and between the
`\r` and the `\n` that end it. `parse_line` is written for that. It stops in front
of a `\r` that is the last byte, and it is called again from where it stopped.

What a call of `process_read` has done is therefore not undone by bytes that come
later, since all it has written lies before them (`parseLine_recv`, `turn_recv`).
As long as the headers are not complete, what the connection has after several
calls is what one call makes of all the bytes at once
(**`serve_eq_processRead`**).
-/

namespace TinyWeb

open Cells

namespace HttpConn

variable {s : HttpConn} {c : Bytes} {k p q : ℕ}

/-! ## A line, wherever it ends

`parse_line` goes on from where it stopped, so what it has gone over must not have
an end of a line in it that it would find now. It stops in front of a `\r` that is
the last byte received, and when more comes it looks at this `\r` again. Otherwise
nothing of what it has gone over is a `\r`, and a `\n` there would have been taken
for a bad line. This is what `Ready` says, and it is what every call leaves. -/

/-- What `process_read` relies on from call to call. Before the place where
`parse_line` goes on there is no `\r`, which it stops in front of. -/
structure Ready (s : HttpConn) : Prop where
  start : s.startLine ≤ s.checkedIdx
  checked : s.checkedIdx ≤ s.readIdx
  room : s.readIdx ≤ readBufferSize
  clean : 0 < s.checkedIdx → s.readBuf (s.checkedIdx - 1) ≠ cr

/-- There is no end of a line up to here. -/
def Plain (s : HttpConn) (k : ℕ) : Prop :=
  ∀ i, s.checkedIdx ≤ i → i < k → s.readBuf i ≠ cr ∧ s.readBuf i ≠ lf

/-- The line ends here. -/
structure EndsLine (s : HttpConn) (k : ℕ) : Prop where
  plain : s.Plain k
  checked : s.checkedIdx ≤ k
  received : k + 1 < s.readIdx
  first : s.readBuf k = cr
  second : s.readBuf (k + 1) = lf

/-- The line with terminators in place of its end. -/
def endLine (s : HttpConn) (k : ℕ) : HttpConn :=
  { s with
    readBuf := (s.readBuf.put k nul).put (k + 1) nul
    checkedIdx := k + 2 }

theorem ready_init : init.Ready where
  start := Nat.le_refl 0
  checked := Nat.le_refl 0
  room := Nat.zero_le _
  clean h := absurd h (Nat.lt_irrefl 0)

/-- **`parse_line` goes over what is no end of a line** as if it had begun behind
it. -/
theorem parseLine_skip (hk : s.checkedIdx ≤ k) (hr : k ≤ s.readIdx) (hplain : s.Plain k) :
    s.parseLine = ({ s with checkedIdx := k } : HttpConn).parseLine := by
  induction hn : k - s.checkedIdx generalizing s with
  | zero =>
    obtain rfl : k = s.checkedIdx := by omega
    rfl
  | succ n ih =>
    obtain ⟨hcr, hlf⟩ := hplain s.checkedIdx (Nat.le_refl _) (by omega)
    have hstep : s.parseLine
        = ({ s with checkedIdx := s.checkedIdx + 1 } : HttpConn).parseLine := by
      unfold parseLine
      obtain ⟨left, hleft⟩ : ∃ left, s.readIdx - s.checkedIdx = left + 1 :=
        ⟨s.readIdx - s.checkedIdx - 1, by omega⟩
      rw [hleft]
      simp only [parseLineLoop, if_neg hcr, if_neg hlf]
      congr 1
      omega
    rw [hstep]
    have hplain' : ({ s with checkedIdx := s.checkedIdx + 1 } : HttpConn).Plain k :=
      fun i hi hik => hplain i (Nat.le_of_succ_le hi) hik
    exact ih (s := { s with checkedIdx := s.checkedIdx + 1 }) (by simp only; omega) hr hplain'
      (by simp only; omega)

theorem parseLine_of_endsLine (h : s.EndsLine k) : s.parseLine = (s.endLine k, .lineOk) := by
  have hreceived := h.received
  rw [parseLine_skip h.checked (by omega) h.plain]
  unfold parseLine
  obtain ⟨left, hleft⟩ : ∃ left, s.readIdx - k = left + 1 := ⟨s.readIdx - k - 1, by omega⟩
  simp only [hleft, parseLineLoop, if_pos h.first, if_neg (show k + 1 ≠ s.readIdx by omega),
    if_pos h.second]
  rfl

/-- The first `\r` or `\n` that is not checked, or the end of what is received. -/
theorem exists_plain (hchecked : s.checkedIdx ≤ s.readIdx) :
    ∃ k, s.checkedIdx ≤ k ∧ k ≤ s.readIdx ∧ s.Plain k ∧
      (k = s.readIdx ∨ k < s.readIdx ∧ (s.readBuf k = cr ∨ s.readBuf k = lf)) := by
  by_cases hall : s.Plain s.readIdx
  · exact ⟨s.readIdx, hchecked, Nat.le_refl _, hall, .inl rfl⟩
  · have hex : ∃ k, s.checkedIdx ≤ k ∧ k < s.readIdx ∧ (s.readBuf k = cr ∨ s.readBuf k = lf) := by
      by_contra hnone
      refine hall (fun i hi hir => ?_)
      constructor
      · exact fun hcr => hnone ⟨i, hi, hir, .inl hcr⟩
      · exact fun hlf => hnone ⟨i, hi, hir, .inr hlf⟩
    classical
    obtain ⟨hk, hkr, hend⟩ := Nat.find_spec hex
    refine ⟨Nat.find hex, hk, hkr.le, fun i hi hik => ?_, .inr ⟨hkr, hend⟩⟩
    have hmin := Nat.find_min hex hik
    constructor
    · exact fun hcr => hmin ⟨hi, hik.trans hkr, .inl hcr⟩
    · exact fun hlf => hmin ⟨hi, hik.trans hkr, .inr hlf⟩

theorem Ready.clean_of_plain (h : s.Ready) (hk : s.checkedIdx ≤ k) (hplain : s.Plain k)
    (hpos : 0 < k) : s.readBuf (k - 1) ≠ cr := by
  rcases Nat.lt_or_eq_of_le hk with hlt | heq
  · exact (hplain (k - 1) (by omega) (by omega)).1
  · exact heq ▸ h.clean (heq ▸ hpos)

/-- **What `parse_line` does.** It ends the line, or it stops behind what is no
end of a line. -/
theorem Ready.parseLine_cases (h : s.Ready) :
    (∃ k, s.EndsLine k ∧ s.parseLine = (s.endLine k, .lineOk)) ∨
    ∃ k line, line ≠ .lineOk ∧ s.checkedIdx ≤ k ∧ k ≤ s.readIdx ∧ s.Plain k ∧
      s.parseLine = ({ s with checkedIdx := k }, line) := by
  obtain ⟨k, hk, hkr, hplain, hend⟩ := exists_plain h.checked
  by_cases hline : s.EndsLine k
  · exact .inl ⟨k, hline, parseLine_of_endsLine hline⟩
  · right
    rw [parseLine_skip hk hkr hplain]
    rcases hend with rfl | ⟨hlt, hend⟩
    · refine ⟨s.readIdx, .lineOpen, LineStatus.noConfusion, hk, hkr, hplain, ?_⟩
      unfold parseLine
      rw [Nat.sub_self]
      rfl
    · obtain ⟨left, hleft⟩ : ∃ left, s.readIdx - k = left + 1 := ⟨s.readIdx - k - 1, by omega⟩
      unfold parseLine
      simp only [hleft, parseLineLoop]
      by_cases hcr : s.readBuf k = cr
      · by_cases hlast : k + 1 = s.readIdx
        · refine ⟨k, .lineOpen, LineStatus.noConfusion, hk, hkr, hplain, ?_⟩
          rw [if_pos hcr, if_pos hlast]
        · have hlf : s.readBuf (k + 1) ≠ lf :=
            fun hlf => hline ⟨hplain, hk, by omega, hcr, hlf⟩
          refine ⟨k, .lineBad, LineStatus.noConfusion, hk, hkr, hplain, ?_⟩
          rw [if_pos hcr, if_neg hlast, if_neg hlf]
      · have hlf : s.readBuf k = lf := hend.resolve_left hcr
        have hprev : ¬(1 < k ∧ s.readBuf (k - 1) = cr) := by
          rintro ⟨hpos, hprev⟩
          exact h.clean_of_plain hk hplain (by omega) hprev
        refine ⟨k, .lineBad, LineStatus.noConfusion, hk, hkr, hplain, ?_⟩
        rw [if_neg hcr, if_pos hlf, if_neg hprev]

/-- **What comes later does not change a line** that has ended. -/
theorem EndsLine.recv (h : s.EndsLine k) :
    (s.recv c).EndsLine k ∧ (s.recv c).endLine k = (s.endLine k).recv c := by
  have hreceived := h.received
  have hbuf : ∀ i, i < s.readIdx → (s.recv c).readBuf i = s.readBuf i :=
    fun i hi => storeAt_of_lt hi
  refine ⟨⟨fun i hi hik => ?_, h.checked, ?_, ?_, ?_⟩, ?_⟩
  · rw [hbuf i (by omega)]
    exact h.plain i hi hik
  · exact hreceived.trans_le (Nat.le_add_right _ _)
  · exact (hbuf k (by omega)).trans h.first
  · exact (hbuf (k + 1) hreceived).trans h.second
  · unfold endLine HttpConn.recv
    simp only [put_storeAt hreceived, put_storeAt (show k < s.readIdx by omega)]

/-! ## What stands before the end of a line

Behind a line there are two terminators, in place of `\r` and `\n`. A string that
begins in the line ends at the first of them or before. Whatever is received later
is written behind, so no string of the line depends on it. Between the two a
pointer may stand as well: it is at an empty string, and the second terminator
ends it. -/

/-- Here a line ended, with a second terminator behind it. -/
structure EndsBy (s : HttpConn) (q : ℕ) : Prop where
  ended : s.readBuf q = nul
  received : q + 1 < s.readIdx
  room : s.readIdx ≤ readBufferSize

theorem EndsBy.endAt (h : s.EndsBy q) : (s.endAt p).EndsBy q := by
  refine ⟨?_, h.received, h.room⟩
  by_cases hpq : q = p
  · subst hpq
    exact Function.update_self _ _ _
  · exact (Function.update_of_ne hpq _ _).trans h.ended

theorem endAt_recv (hp : p < s.readIdx) : (s.recv c).endAt p = (s.endAt p).recv c := by
  unfold HttpConn.endAt HttpConn.recv
  simp only [put_storeAt hp]

theorem EndsBy.text_recv (h : s.EndsBy q) (hp : p ≤ q) : (s.recv c).text p = s.text p := by
  have hreceived := h.received
  have hroom := h.room
  exact cstr_congr (fun i _ hiq => storeAt_of_lt (by omega)) h.ended hp (by omega) (by omega)

theorem length_text_le (hq : s.readBuf q = nul) (hp : p ≤ q) : p + (s.text p).length ≤ q := by
  have hle := length_cstr_le (n := readBufferSize - p) hq hp
  unfold text
  omega

theorem skipBlanks_le (hq : s.readBuf q = nul) (hp : p ≤ q) : s.skipBlanks p ≤ q := by
  have hle := length_text_le hq hp
  have htake := (List.takeWhile_sublist (p := isBlank) (l := s.text p)).length_le
  unfold skipBlanks
  omega

theorem lt_of_findIdx {f : UInt8 → Bool} {r : ℕ} (hq : s.readBuf q = nul) (hp : p ≤ q)
    (hr : ((s.text p).findIdx? f).map (p + ·) = some r) : p ≤ r ∧ r < q := by
  obtain ⟨i, hi, rfl⟩ := Option.map_eq_some_iff.mp hr
  obtain ⟨hlt, -⟩ := List.findIdx?_eq_some_iff_findIdx_eq.mp hi
  have hle := length_text_le hq hp
  omega

end HttpConn

/-- What a turn leads to, with more received. -/
def Turn.recv (c : Bytes) : Turn → Turn
  | .again line s => .again line (s.recv c)
  | .ended (.noRequest s) => .ended (.noRequest (s.recv c))
  | .ended (.badRequest s) => .ended (.badRequest (s.recv c))
  | .ended (.doRequest s) => .ended (.doRequest (s.recv c))
  | .ended .fault => .ended .fault
  | .ended .running => .ended .running

namespace HttpConn

variable {s s' s₁ : HttpConn} {c : Bytes} {k p q url rounds rounds' rounds'' : ℕ}
  {line : LineStatus}

/-- The result of a part of the parser, with more received. -/
def later (c : Bytes) (r : HttpConn × HttpCode) : HttpConn × HttpCode := (r.1.recv c, r.2)

/-! ## The request line, with more received -/

theorem length_of_strncasecmp {u t : Bytes} (h : strncasecmp u t t.length) :
    t.length ≤ u.length := by
  have hmap : (u.take t.length).map toLower = (t.take t.length).map toLower := of_decide_eq_true h
  have hlength := congrArg List.length hmap
  rw [List.length_map, List.length_map, List.length_take, List.length_take, Nat.min_self] at hlength
  omega

/-- Behind the host the string goes on. -/
theorem skipHost_le {scheme : Bytes} {r : ℕ} (hp : s.readBuf p = nul) (hurl : url ≤ p)
    (h : s.skipHost scheme url = some r) : r ≤ p := by
  unfold skipHost at h
  split at h
  · next hscheme =>
    have hlength := length_of_strncasecmp hscheme
    have hle := length_text_le hp hurl
    exact (lt_of_findIdx hp (by omega) h).2.le
  · cases h
    exact hurl

theorem skipHost_recv {scheme : Bytes} (h : s.EndsBy q) (hurl : url ≤ q) :
    (s.recv c).skipHost scheme url = s.skipHost scheme url := by
  unfold skipHost
  rw [h.text_recv hurl]
  split
  · next hscheme =>
    have hlength := length_of_strncasecmp hscheme
    have hle := length_text_le h.ended hurl
    unfold strchr
    rw [h.text_recv (by omega)]
  · rfl

/-- The page that stands for `/` is written over the version, which is as long as
it, and so not over what comes later. -/
theorem parseUrl_recv (h : s.EndsBy q) (hp : s.readBuf p = nul) (hurl : url ≤ p)
    (hversion : p + 9 ≤ q) : (s.recv c).parseUrl url = (s.parseUrl url).map (later c) := by
  have hreceived := h.received
  unfold parseUrl
  rw [skipHost_recv h (by omega)]
  cases hhttp : s.skipHost (str "http://") url with
  | none => rfl
  | some r =>
    have hr := skipHost_le hp hurl hhttp
    simp only [Option.bind_some]
    rw [skipHost_recv h (by omega)]
    cases hhttps : s.skipHost (str "https://") r with
    | none => rfl
    | some u =>
      have hu := skipHost_le hp hr hhttps
      have hcell : (s.recv c).readBuf u = s.readBuf u := storeAt_of_lt (by omega)
      simp only [hcell, h.text_recv (show u ≤ q by omega)]
      by_cases hslash : s.readBuf u = slash
      · rw [if_neg (not_not_intro hslash), if_neg (not_not_intro hslash)]
        by_cases hone : (s.text u).length = 1
        · have hne : u ≠ p := by
            rintro rfl
            rw [hp] at hslash
            exact absurd hslash (by decide)
          simp only [if_pos hone, Option.map_some, later, recv]
          rw [storeAt_storeAt]
          have hlong : (str "judge.html" ++ [nul]).length = 11 := by decide +kernel
          omega
        · simp only [if_neg hone]
          rfl
      · rw [if_pos hslash, if_pos hslash]
        rfl

theorem strpbrk_recv (h : s.EndsBy q) (hp : p ≤ q) : (s.recv c).strpbrk p = s.strpbrk p := by
  unfold strpbrk
  rw [h.text_recv hp]

theorem skipBlanks_recv (h : s.EndsBy q) (hp : p ≤ q) :
    (s.recv c).skipBlanks p = s.skipBlanks p := by
  unfold skipBlanks
  rw [h.text_recv hp]

theorem le_skipBlanks : p ≤ s.skipBlanks p := Nat.le_add_right _ _

theorem parseVersion_recv (h : s.EndsBy q) (hurl : url ≤ q) :
    (s.recv c).parseVersion url = (s.parseVersion url).map (later c) := by
  have hreceived := h.received
  have hblanks := skipBlanks_le h.ended hurl
  unfold parseVersion
  simp only
  rw [skipBlanks_recv h hurl, strpbrk_recv h hblanks]
  cases hp : s.strpbrk (s.skipBlanks url) with
  | none => rfl
  | some p =>
    obtain ⟨hle, hlt⟩ := lt_of_findIdx h.ended hblanks hp
    simp only
    rw [endAt_recv (show p < s.readIdx by omega), skipBlanks_recv h.endAt (show p + 1 ≤ q by omega)]
    have hv := skipBlanks_le (h.endAt (p := p)).ended (show p + 1 ≤ q by omega)
    have hpv := le_skipBlanks (s := s.endAt p) (p := p + 1)
    generalize (s.endAt p).skipBlanks (p + 1) = version at hv hpv
    have hends : ({ s.endAt p with url := some (s.skipBlanks url), version := some version } :
        HttpConn).EndsBy q := ⟨(h.endAt (p := p)).ended, h.received, h.room⟩
    generalize hs : ({ s.endAt p with url := some (s.skipBlanks url), version := some version } :
        HttpConn) = s₁ at hends
    have hrecv : ({ (s.endAt p).recv c with
        url := some (s.skipBlanks url), version := some version } : HttpConn) = s₁.recv c := by
      rw [← hs]
      rfl
    rw [hrecv, hends.text_recv hv]
    split
    · next hversion =>
      have hlength : (s₁.text version).length = 8 := by
        have hmap := congrArg List.length (of_decide_eq_true hversion)
        rw [List.length_map, List.length_map] at hmap
        exact hmap.trans (by decide +kernel)
      have hlast := length_text_le hends.ended hv
      refine parseUrl_recv (p := p) hends ?_ hle (by omega)
      rw [← hs]
      exact Function.update_self _ _ _
    · rfl

/-- **The request line** is taken apart as it would be with more received. -/
theorem parseRequestLine_recv {text : ℕ} (h : s.EndsBy q) (htext : text ≤ q) :
    (s.recv c).parseRequestLine text = (s.parseRequestLine text).map (later c) := by
  have hreceived := h.received
  unfold parseRequestLine
  rw [strpbrk_recv h htext]
  cases hp : s.strpbrk text with
  | none => rfl
  | some p =>
    obtain ⟨hle, hlt⟩ := lt_of_findIdx h.ended htext hp
    simp only
    rw [endAt_recv (show p < s.readIdx by omega)]
    have hends : ({ s.endAt p with url := some (p + 1) } : HttpConn).EndsBy q :=
      ⟨(h.endAt (p := p)).ended, h.received, h.room⟩
    have hmethod : ({ (s.endAt p).recv c with url := some (p + 1) } : HttpConn).text text
        = ({ s.endAt p with url := some (p + 1) } : HttpConn).text text := hends.text_recv htext
    rw [hmethod]
    split
    · exact parseVersion_recv (s := { s.endAt p with url := some (p + 1), method := .get })
        ⟨hends.ended, hends.received, hends.room⟩ (by omega)
    · split
      · exact parseVersion_recv
          (s := { s.endAt p with url := some (p + 1), method := .post, cgi := true })
          ⟨hends.ended, hends.received, hends.room⟩ (by omega)
      · rfl

/-! ## A header, with more received -/

/-- **A header** is read as it would be with more received. -/
theorem parseHeaders_recv {text : ℕ} (h : s.EndsBy q) (htext : text ≤ q) :
    (s.recv c).parseHeaders text = later c (s.parseHeaders text) := by
  have hreceived := h.received
  have hcell : (s.recv c).readBuf text = s.readBuf text := storeAt_of_lt (by omega)
  have hskip : ∀ name : Bytes, strncasecmp (s.text text) name name.length →
      (s.recv c).skipBlanks (text + name.length) = s.skipBlanks (text + name.length) ∧
        (s.recv c).text (s.skipBlanks (text + name.length))
          = s.text (s.skipBlanks (text + name.length)) := by
    intro name hname
    have hlength := length_of_strncasecmp hname
    have hle := length_text_le h.ended htext
    have hin : text + name.length ≤ q := by omega
    exact ⟨skipBlanks_recv h hin, h.text_recv (skipBlanks_le h.ended hin)⟩
  have hconnection := hskip (str "Connection:")
  have hlength := hskip (str "Content-length:")
  have hhost := hskip (str "Host:")
  rw [show (str "Connection:").length = 11 by decide +kernel] at hconnection
  rw [show (str "Content-length:").length = 15 by decide +kernel] at hlength
  rw [show (str "Host:").length = 5 by decide +kernel] at hhost
  have hzero : (s.recv c).contentLength = s.contentLength := rfl
  unfold parseHeaders
  rw [hcell, h.text_recv htext, hzero]
  by_cases hempty : s.readBuf text = nul
  · rw [if_pos hempty, if_pos hempty, apply_ite (later c)]
    rfl
  rw [if_neg hempty, if_neg hempty]
  by_cases hname : strncasecmp (s.text text) (str "Connection:") 11
  · obtain ⟨hblanks, hvalue⟩ := hconnection hname
    rw [if_pos hname, if_pos hname, hblanks, hvalue, apply_ite (later c)]
    rfl
  rw [if_neg hname, if_neg hname]
  by_cases hname : strncasecmp (s.text text) (str "Content-length:") 15
  · obtain ⟨hblanks, hvalue⟩ := hlength hname
    rw [if_pos hname, if_pos hname, hblanks, hvalue]
    rfl
  rw [if_neg hname, if_neg hname]
  by_cases hname : strncasecmp (s.text text) (str "Host:") 5
  · rw [if_pos hname, if_pos hname, (hhost hname).1]
    rfl
  · rw [if_neg hname, if_neg hname]
    rfl

/-- **A turn** with a line is what it would be with more received. -/
theorem turn_recv (h : s.EndsBy q) (hstart : s.startLine ≤ q) (hstate : s.checkState ≠ .content) :
    (s.recv c).turn = s.turn.recv c := by
  have hends : ({ s with startLine := s.checkedIdx } : HttpConn).EndsBy q :=
    ⟨h.ended, h.received, h.room⟩
  have hrequest := parseRequestLine_recv (c := c) hends hstart
  have hheaders := parseHeaders_recv (c := c) hends hstart
  unfold turn
  cases hcase : s.checkState with
  | content => exact absurd hcase hstate
  | requestLine =>
    simp only [recv] at hrequest ⊢
    rw [hcase] at hrequest ⊢
    simp only
    rw [hrequest]
    rcases parseRequestLine _ _ with _ | ⟨r, code⟩
    · rfl
    · cases code <;> rfl
  | header =>
    simp only [recv] at hheaders ⊢
    rw [hcase] at hheaders ⊢
    simp only
    rw [hheaders]
    rcases parseHeaders _ _ with ⟨r, code⟩
    cases code <;> rfl

/-! ## What a turn leaves

A turn writes terminators into the line it is about, or the page that stands for
`/`, and moves the place where the next line begins. No `\r` is written and
nothing behind the line is touched, so `parse_line` is in the position it needs
for the next one. -/

/-- Only the buffer is written, and no `\r` is written into it. -/
structure Keeps (s s' : HttpConn) : Prop where
  read : s'.readIdx = s.readIdx
  checked : s'.checkedIdx = s.checkedIdx
  start : s'.startLine = s.startLine
  clean : ∀ i, s.readBuf i ≠ cr → s'.readBuf i ≠ cr

theorem Keeps.trans {s₁ s₂ s₃ : HttpConn} (h : s₁.Keeps s₂) (h' : s₂.Keeps s₃) : s₁.Keeps s₃ where
  read := h'.read.trans h.read
  checked := h'.checked.trans h.checked
  start := h'.start.trans h.start
  clean i hi := h'.clean i (h.clean i hi)

theorem keeps_endAt : s.Keeps (s.endAt p) where
  read := rfl
  checked := rfl
  start := rfl
  clean _ hi := put_ne (by decide) hi

theorem parseUrl_keeps {r : HttpConn × HttpCode} (h : s.parseUrl url = some r) : s.Keeps r.1 := by
  unfold parseUrl at h
  obtain ⟨u, -, h⟩ := Option.bind_eq_some_iff.mp h
  split at h
  · cases h
    exact ⟨rfl, rfl, rfl, fun _ hi => hi⟩
  · split at h
    · cases h
      exact ⟨rfl, rfl, rfl, fun _ hi => hi⟩
    · cases h
      refine ⟨rfl, rfl, rfl, fun i hi => ?_⟩
      simp only
      split
      · exact storeAt_ne (by decide +kernel) hi
      · exact hi

theorem parseVersion_keeps {r : HttpConn × HttpCode} (h : s.parseVersion url = some r) :
    s.Keeps r.1 := by
  unfold parseVersion at h
  simp only at h
  split at h
  · cases h
    exact ⟨rfl, rfl, rfl, fun _ hi => hi⟩
  · split at h
    · have hkeeps := parseUrl_keeps h
      exact keeps_endAt.trans ⟨hkeeps.read, hkeeps.checked, hkeeps.start, hkeeps.clean⟩
    · cases h
      exact keeps_endAt.trans ⟨rfl, rfl, rfl, fun _ hi => hi⟩

theorem parseRequestLine_keeps {text : ℕ} {r : HttpConn × HttpCode}
    (h : s.parseRequestLine text = some r) : s.Keeps r.1 := by
  unfold parseRequestLine at h
  split at h
  · cases h
    exact ⟨rfl, rfl, rfl, fun _ hi => hi⟩
  · simp only at h
    split at h
    · have hkeeps := parseVersion_keeps h
      exact keeps_endAt.trans ⟨hkeeps.read, hkeeps.checked, hkeeps.start, hkeeps.clean⟩
    · split at h
      · have hkeeps := parseVersion_keeps h
        exact keeps_endAt.trans ⟨hkeeps.read, hkeeps.checked, hkeeps.start, hkeeps.clean⟩
      · cases h
        exact keeps_endAt.trans ⟨rfl, rfl, rfl, fun _ hi => hi⟩

theorem parseHeaders_keeps {text : ℕ} : s.Keeps (s.parseHeaders text).1 := by
  unfold parseHeaders
  split_ifs <;> exact ⟨rfl, rfl, rfl, fun _ hi => hi⟩

theorem parseContent_keeps {text : ℕ} {r : HttpConn × HttpCode}
    (h : s.parseContent text = some r) : s.Keeps r.1 := by
  unfold parseContent at h
  simp only at h
  split_ifs at h
  · cases h
    exact keeps_endAt.trans ⟨rfl, rfl, rfl, fun _ hi => hi⟩
  · cases h
    exact ⟨rfl, rfl, rfl, fun _ hi => hi⟩

theorem parseContent_checkState {text : ℕ} {r : HttpConn × HttpCode}
    (h : s.parseContent text = some r) : r.1.checkState = s.checkState := by
  unfold parseContent at h
  simp only at h
  split_ifs at h <;> cases h <;> rfl

/-- **A turn that is not the last**: what was looked at is done with, and in the
body no line is in front. -/
theorem turn_again (h : s.turn = .again line s') :
    ({ s with startLine := s.checkedIdx } : HttpConn).Keeps s' ∧
      (s.checkState ≠ .content → line = .lineOk) ∧
      (s.checkState = .content → line = .lineOpen ∧ s'.checkState = .content) := by
  unfold turn at h
  cases hcase : s.checkState with
  | requestLine =>
    simp only [hcase] at h
    split at h
    · cases h
    · cases h
    · next hparse =>
      cases h
      exact ⟨parseRequestLine_keeps hparse, fun _ => rfl, CheckState.noConfusion⟩
  | header =>
    have hkeeps : ({ s with startLine := s.checkedIdx } : HttpConn).Keeps
        (parseHeaders { s with startLine := s.checkedIdx } s.startLine).1 := parseHeaders_keeps
    simp only [hcase] at h hkeeps
    split at h
    · cases h
    · cases h
    · next hparse =>
      rw [hparse] at hkeeps
      cases h
      exact ⟨hkeeps, fun _ => rfl, CheckState.noConfusion⟩
  | content =>
    simp only [hcase] at h
    split at h
    · cases h
    · cases h
    · next hparse =>
      cases h
      exact ⟨parseContent_keeps hparse, fun hne => absurd rfl hne,
        fun _ => ⟨rfl, parseContent_checkState hparse⟩⟩

theorem turn_ready (h : s.Ready) (hturn : s.turn = .again line s') : s'.Ready := by
  obtain ⟨hkeeps, -, -⟩ := turn_again hturn
  have hread : s'.readIdx = s.readIdx := hkeeps.read
  have hchecked : s'.checkedIdx = s.checkedIdx := hkeeps.checked
  refine ⟨hkeeps.start.trans_le hchecked.ge, ?_, hread ▸ h.room, fun hpos => ?_⟩
  · rw [hchecked, hread]
    exact h.checked
  · rw [hchecked]
    exact hkeeps.clean _ (h.clean (hchecked ▸ hpos))

theorem endLine_ready (h : s.Ready) (hk : s.EndsLine k) : (s.endLine k).Ready where
  start := h.start.trans (hk.checked.trans (Nat.le_add_right k 2))
  checked := hk.received
  room := h.room
  clean _ := by
    have hend : (s.endLine k).readBuf ((s.endLine k).checkedIdx - 1) = nul :=
      Function.update_self _ _ _
    rw [hend]
    decide

theorem endLine_endsBy (h : s.Ready) (hk : s.EndsLine k) : (s.endLine k).EndsBy k where
  ended := (Function.update_of_ne (Nat.ne_of_lt (Nat.lt_succ_self k)) _ _).trans
    (Function.update_self _ _ _)
  received := hk.received
  room := h.room

theorem skip_ready (h : s.Ready) (hk : s.checkedIdx ≤ k) (hkr : k ≤ s.readIdx)
    (hplain : s.Plain k) : ({ s with checkedIdx := k } : HttpConn).Ready where
  start := h.start.trans hk
  checked := hkr
  room := h.room
  clean hpos := h.clean_of_plain hk hplain hpos

/-! ## As many rounds as are needed

The loop makes a round for every line and one more for the body. A line has two
bytes at least and moves the place up to which everything was checked, so the
number of bytes that are not checked gives a bound that every round makes less.
How many more rounds might be made is then immaterial, and a call is a function of
the connection. -/

/-- More rounds than this are never made. -/
def roundsLeft (line : LineStatus) (s : HttpConn) : ℕ :=
  s.readIdx - s.checkedIdx + if line = .lineOk then 1 else 0

/-- What the loop has before it: a line, or the body without a line. -/
theorem Ready.nextLine_cases (h : s.Ready) (hnext : s.nextLine line = (s₁, .lineOk)) :
    s.checkState = .content ∧ line = .lineOk ∧ s₁ = s ∨
      ∃ k, s.EndsLine k ∧ s₁ = s.endLine k := by
  unfold HttpConn.nextLine at hnext
  split at hnext
  · next hcond =>
    cases hnext
    exact .inl ⟨hcond.1, hcond.2, rfl⟩
  · rcases h.parseLine_cases with ⟨k, hk, hline⟩ | ⟨k, line', hne, -, -, -, hline⟩
    · rw [hline] at hnext
      cases hnext
      exact .inr ⟨k, hk, rfl⟩
    · rw [hline] at hnext
      cases hnext
      exact absurd rfl hne

/-- A round takes the end of a line, or it is the one with the body. -/
theorem Ready.round (h : s.Ready) (hnext : s.nextLine line = (s₁, .lineOk))
    {line' : LineStatus} (hturn : s₁.turn = .again line' s') :
    s'.Ready ∧ roundsLeft line' s' < roundsLeft line s := by
  obtain ⟨hkeeps, -, hbody⟩ := turn_again hturn
  have hread : s'.readIdx = s₁.readIdx := hkeeps.read
  have hchecked : s'.checkedIdx = s₁.checkedIdx := hkeeps.checked
  unfold roundsLeft
  rw [hread, hchecked]
  rcases h.nextLine_cases hnext with ⟨hcontent, rfl, rfl⟩ | ⟨k, hk, rfl⟩
  · refine ⟨turn_ready h hturn, ?_⟩
    rw [(hbody hcontent).1, if_pos rfl, if_neg LineStatus.noConfusion]
    exact Nat.lt_succ_self _
  · refine ⟨turn_ready (endLine_ready h hk) hturn, ?_⟩
    have hkc := hk.checked
    have hkr := hk.received
    have hone : (if line' = .lineOk then 1 else 0) ≤ 1 := by split <;> omega
    simp only [endLine]
    omega

theorem processReadLoop_again {line' : LineStatus} (hnext : s.nextLine line = (s₁, .lineOk))
    (hturn : s₁.turn = .again line' s') :
    processReadLoop (rounds + 1) line s = processReadLoop rounds line' s' := by
  conv_lhs => unfold processReadLoop
  rw [hnext]
  simp only
  rw [hturn]

theorem processReadLoop_ended {r : ProcessRead} (hnext : s.nextLine line = (s₁, .lineOk))
    (hturn : s₁.turn = .ended r) : processReadLoop (rounds + 1) line s = r := by
  unfold processReadLoop
  rw [hnext]
  simp only
  rw [hturn]

theorem processReadLoop_stops {line₁ : LineStatus} (hnext : s.nextLine line = (s₁, line₁))
    (hne : line₁ ≠ .lineOk) : processReadLoop (rounds + 1) line s = .noRequest s₁ := by
  unfold processReadLoop
  rw [hnext]
  cases line₁ <;> first | exact absurd rfl hne | rfl

/-- **The rounds do not run out**, and how many more there might be is
immaterial. -/
theorem processReadLoop_of_lt (h : s.Ready) (hrounds : roundsLeft line s < rounds)
    (hrounds' : roundsLeft line s < rounds') :
    processReadLoop rounds line s = processReadLoop rounds' line s := by
  induction rounds generalizing rounds' line s with
  | zero => exact absurd hrounds (Nat.not_lt_zero _)
  | succ rounds ih =>
    obtain ⟨rounds', rfl⟩ : ∃ r, rounds' = r + 1 := ⟨rounds' - 1, by omega⟩
    rcases hnext : s.nextLine line with ⟨s₁, line₁⟩
    by_cases hline : line₁ = .lineOk
    · subst hline
      cases hturn : s₁.turn with
      | ended r => rw [processReadLoop_ended hnext hturn, processReadLoop_ended hnext hturn]
      | again line₂ s₂ =>
        obtain ⟨hready, hless⟩ := h.round hnext hturn
        rw [processReadLoop_again hnext hturn, processReadLoop_again hnext hturn]
        exact ih hready (by omega) (by omega)
    · rw [processReadLoop_stops hnext hline, processReadLoop_stops hnext hline]

/-! ## The headers are not complete -/

theorem turn_ne_noRequest : s.turn ≠ .ended (.noRequest s') := by
  intro h
  unfold turn at h
  cases hcase : s.checkState <;> simp only [hcase] at h <;> split at h <;> cases h

/-- In the body the loop goes on until it is received. -/
theorem processReadLoop_content (hready : s.Ready) (h : s.checkState = .content)
    (hrun : processReadLoop rounds line s = .noRequest s') : s'.checkState = .content := by
  induction rounds generalizing line s with
  | zero => cases hrun
  | succ rounds ih =>
    rcases hnext : s.nextLine line with ⟨s₁, line₁⟩
    by_cases hline : line₁ = .lineOk
    · subst hline
      have hstate₁ : s₁.checkState = .content := by
        rcases hready.nextLine_cases hnext with ⟨-, -, rfl⟩ | ⟨k, -, rfl⟩ <;> exact h
      cases hturn : s₁.turn with
      | ended r =>
        rw [processReadLoop_ended hnext hturn] at hrun
        exact absurd (hturn.trans (congrArg _ hrun)) turn_ne_noRequest
      | again line₂ s₂ =>
        rw [processReadLoop_again hnext hturn] at hrun
        exact ih (hready.round hnext hturn).1 (((turn_again hturn).2.2 hstate₁).2) hrun
    · rw [processReadLoop_stops hnext hline] at hrun
      cases hrun
      unfold HttpConn.nextLine at hnext
      split at hnext
      · cases hnext
        exact h
      · rcases hready.parseLine_cases with ⟨k, -, hparse⟩ | ⟨k, line', -, -, -, -, hparse⟩ <;>
          · rw [hparse] at hnext
            cases hnext
            exact h

theorem recv_ready (h : s.Ready) (hroom : s.readIdx + c.length ≤ readBufferSize) :
    (s.recv c).Ready where
  start := h.start
  checked := h.checked.trans (Nat.le_add_right _ _)
  room := hroom
  clean hpos := by
    have hchecked := h.checked
    have hlt : s.checkedIdx - 1 < s.readIdx := by
      have : 0 < s.checkedIdx := hpos
      omega
    rw [show (s.recv c).readBuf ((s.recv c).checkedIdx - 1) = s.readBuf (s.checkedIdx - 1) from
      storeAt_of_lt hlt]
    exact h.clean hpos

theorem nextLine_of_ne (line : LineStatus) (h : s.checkState ≠ .content) :
    s.nextLine line = s.parseLine :=
  if_neg fun hcond => h hcond.1

theorem EndsLine.nextLine_recv (hk : s.EndsLine k) (line : LineStatus)
    (hstate : s.checkState ≠ .content) :
    s.nextLine line = (s.endLine k, .lineOk) ∧
      (s.recv c).nextLine line = ((s.endLine k).recv c, .lineOk) := by
  obtain ⟨hkrecv, hendLine⟩ := hk.recv (c := c)
  rw [nextLine_of_ne _ hstate,
    nextLine_of_ne _ (show (s.recv c).checkState ≠ .content from hstate),
      parseLine_of_endsLine hk, parseLine_of_endsLine hkrecv, hendLine]
  exact ⟨rfl, rfl⟩

theorem Ready.turn_endLine_recv (h : s.Ready) (hk : s.EndsLine k)
    (hstate : s.checkState ≠ .content) :
    ((s.endLine k).recv c).turn = (s.endLine k).turn.recv c :=
  turn_recv (endLine_endsBy h hk) (show (s.endLine k).startLine ≤ k from h.start.trans hk.checked)
    (show (s.endLine k).checkState ≠ .content from hstate)

/-- **What a call of `process_read` has done stands.** If it ends within the
headers, the next call goes on as the same would, had more been received. -/
theorem processReadLoop_recv (h : s.Ready) (hstate : s.checkState ≠ .content)
    (hrun : processReadLoop rounds .lineOk s = .noRequest s') (hstate' : s'.checkState ≠ .content)
    (hroom : s.readIdx + c.length ≤ readBufferSize)
    (hrounds' : roundsLeft .lineOk (s.recv c) < rounds')
    (hrounds'' : roundsLeft .lineOk (s'.recv c) < rounds'') :
    s'.Ready ∧ s'.readIdx = s.readIdx ∧
      processReadLoop rounds' .lineOk (s.recv c)
        = processReadLoop rounds'' .lineOk (s'.recv c) := by
  induction rounds generalizing s rounds' with
  | zero => cases hrun
  | succ rounds ih =>
    have hready := recv_ready h hroom
    obtain ⟨rounds', rfl⟩ : ∃ r, rounds' = r + 1 := ⟨rounds' - 1, by omega⟩
    rcases h.parseLine_cases with ⟨k, hk, -⟩ | ⟨k, line, hne, hck, hkr, hplain, hparse⟩
    · obtain ⟨hnext, hnext_recv⟩ := hk.nextLine_recv (c := c) .lineOk hstate
      have hturn_recv := h.turn_endLine_recv (c := c) hk hstate
      cases hturn : (s.endLine k).turn with
      | ended r =>
        rw [processReadLoop_ended hnext hturn] at hrun
        exact absurd (hturn.trans (congrArg _ hrun)) turn_ne_noRequest
      | again line₂ s₂ =>
        obtain rfl : line₂ = .lineOk := (turn_again hturn).2.1 hstate
        have hready₂ := turn_ready (endLine_ready h hk) hturn
        have hread₂ : s₂.readIdx = s.readIdx := (turn_again hturn).1.read
        rw [processReadLoop_again hnext hturn] at hrun
        rw [hturn] at hturn_recv
        have hstate₂ : s₂.checkState ≠ .content :=
          fun hcontent => hstate' (processReadLoop_content hready₂ hcontent hrun)
        have hless := (hready.round hnext_recv hturn_recv).2
        obtain ⟨hready', hread', hloop⟩ := ih hready₂ hstate₂ hrun
          (hread₂ ▸ hroom) (show roundsLeft .lineOk (s₂.recv c) < rounds' by omega)
        exact ⟨hready', hread'.trans hread₂,
          (processReadLoop_again hnext_recv hturn_recv).trans hloop⟩
    · have hnext := (nextLine_of_ne .lineOk hstate).trans hparse
      rw [processReadLoop_stops hnext hne] at hrun
      cases hrun
      have hskip : (s.recv c).nextLine .lineOk
          = (({ s with checkedIdx := k } : HttpConn).recv c).nextLine .lineOk := by
        rw [nextLine_of_ne _ (show (s.recv c).checkState ≠ .content from hstate),
          nextLine_of_ne _
            (show (({ s with checkedIdx := k } : HttpConn).recv c).checkState ≠ .content
              from hstate)]
        refine parseLine_skip (s := s.recv c) hck (hkr.trans (Nat.le_add_right _ _)) ?_
        intro i hi hik
        have hik' : i < k := hik
        rw [show (s.recv c).readBuf i = s.readBuf i from storeAt_of_lt (by omega)]
        exact hplain i hi hik
      have hready' := skip_ready h hck hkr hplain
      have hless : roundsLeft .lineOk (({ s with checkedIdx := k } : HttpConn).recv c)
          < rounds' + 1 :=
        lt_of_le_of_lt (Nat.add_le_add_right (Nat.sub_le_sub_left hck _) _) hrounds'
      refine ⟨hready', rfl, ?_⟩
      rw [← processReadLoop_of_lt (recv_ready hready' hroom) hless hrounds'']
      unfold processReadLoop
      rw [hskip]

/-- A call that ends within the headers would do so, had less been received. -/
theorem processReadLoop_of_recv (h : s.Ready) (hstate : s.checkState ≠ .content)
    (hroom : s.readIdx + c.length ≤ readBufferSize)
    (hrun : processReadLoop rounds' .lineOk (s.recv c) = .noRequest s')
    (hstate' : s'.checkState ≠ .content) (hrounds : roundsLeft .lineOk s < rounds) :
    ∃ t, processReadLoop rounds .lineOk s = .noRequest t ∧ t.checkState ≠ .content := by
  induction rounds generalizing s rounds' with
  | zero => exact absurd hrounds (Nat.not_lt_zero _)
  | succ rounds ih =>
    rcases h.parseLine_cases with ⟨k, hk, -⟩ | ⟨k, line, hne, -, -, -, hparse⟩
    · obtain ⟨hnext, hnext_recv⟩ := hk.nextLine_recv (c := c) .lineOk hstate
      have hturn_recv := h.turn_endLine_recv (c := c) hk hstate
      cases rounds' with
      | zero => cases hrun
      | succ rounds' =>
        cases hturn : (s.endLine k).turn with
        | ended r =>
          rw [hturn] at hturn_recv
          cases r <;> rw [processReadLoop_ended hnext_recv hturn_recv] at hrun <;>
            first | exact absurd hturn turn_ne_noRequest | cases hrun
        | again line₂ s₂ =>
          obtain rfl : line₂ = .lineOk := (turn_again hturn).2.1 hstate
          have hready₂ := turn_ready (endLine_ready h hk) hturn
          have hread₂ : s₂.readIdx = s.readIdx := (turn_again hturn).1.read
          have hroom₂ : s₂.readIdx + c.length ≤ readBufferSize := hread₂ ▸ hroom
          have hless := (h.round hnext hturn).2
          rw [hturn] at hturn_recv
          rw [processReadLoop_again hnext_recv hturn_recv] at hrun
          rw [processReadLoop_again hnext hturn]
          have hstate₂ : s₂.checkState ≠ .content := fun hcontent =>
            hstate' (processReadLoop_content (recv_ready hready₂ hroom₂)
              (show (s₂.recv c).checkState = .content from hcontent) hrun)
          exact ih hready₂ hstate₂ hroom₂ hrun (by omega)
    · have hnext := (nextLine_of_ne .lineOk hstate).trans hparse
      exact ⟨_, processReadLoop_stops hnext hne, hstate⟩

/-! ## All that is received

Two ways to cut the same bytes are compared by what comes out if the bytes are
received at once. As long as the headers are not complete the two are the same, by
induction on the pieces. The last piece brings what it brings: if it ends within
the headers, or has the end of the request in it, there is nothing else to be
done. In the body it is not so: a call that does not find the body complete goes
on to look for a line, and what `parse_line` goes over then is not counted when
the next call looks at the length. -/

theorem roundsLeft_lt : roundsLeft line s < s.readIdx + 2 := by
  unfold roundsLeft
  split <;> omega

/-- A call of `process_read` ends within the headers. -/
def InHeaders (s : HttpConn) : Prop :=
  ∃ s', s.processRead = .noRequest s' ∧ s'.checkState ≠ .content

instance (s : HttpConn) : Decidable s.InHeaders :=
  match h : s.processRead with
  | .noRequest s' => decidable_of_iff (s'.checkState ≠ .content)
      ⟨fun hstate => ⟨s', h, hstate⟩, fun ⟨t, ht, hstate⟩ => by
        rw [h] at ht
        exact ProcessRead.noRequest.inj ht ▸ hstate⟩
  | .badRequest _ | .doRequest _ | .fault | .running =>
    isFalse fun ⟨_, ht, _⟩ => by rw [h] at ht; cases ht

theorem recv_recv (s : HttpConn) (b c : Bytes) : (s.recv b).recv c = s.recv (b ++ c) := by
  unfold recv
  simp only [storeAt_append, List.length_append, Nat.add_assoc]

theorem readOnce_eq (hne : c ≠ []) (hroom : s.readIdx + c.length ≤ readBufferSize) :
    s.readOnce c = some (s.recv c) := by
  have hpos := List.length_pos_iff.mpr hne
  unfold readOnce
  rw [if_neg (show ¬readBufferSize ≤ s.readIdx by omega), if_neg hne, if_pos hroom]

theorem serve_singleton (hne : c ≠ []) (hroom : s.readIdx + c.length ≤ readBufferSize) :
    s.serve [c] = some (s.recv c).processRead := by
  unfold serve
  rw [readOnce_eq hne hroom, Option.bind_some]
  cases (s.recv c).processRead <;> rfl

/-- **However the headers come.** If the bytes that came before the last call of
`recv`, taken at once, leave the connection within the headers, then it is served
as if all the bytes came at once. -/
theorem serve_eq_processRead (h : s.Ready) (hstate : s.checkState ≠ .content)
    (chunks : List Bytes) (last : Bytes) (hne : ∀ b ∈ chunks ++ [last], b ≠ [])
    (hroom : s.readIdx + (chunks ++ [last]).flatten.length ≤ readBufferSize)
    (hheaders : (s.recv chunks.flatten).InHeaders) :
    s.serve (chunks ++ [last]) = some (s.recv (chunks ++ [last]).flatten).processRead := by
  induction chunks generalizing s with
  | nil =>
    rw [List.nil_append, List.flatten_singleton] at hroom ⊢
    exact serve_singleton (hne last List.mem_cons_self) hroom
  | cons b rest ih =>
    have hb : b ≠ [] := hne b List.mem_cons_self
    rw [List.cons_append, List.flatten_cons, List.length_append] at hroom
    have hroom_b : s.readIdx + b.length ≤ readBufferSize := by omega
    have hready := recv_ready h hroom_b
    obtain ⟨t, ht, htstate⟩ := hheaders
    rw [List.flatten_cons, ← recv_recv] at ht
    have hrest : (s.recv b).readIdx + rest.flatten.length ≤ readBufferSize := by
      rw [List.flatten_append, List.length_append] at hroom
      simp only [recv]
      omega
    have hall : (s.recv b).readIdx + (rest ++ [last]).flatten.length ≤ readBufferSize := by
      simp only [recv]
      omega
    obtain ⟨s', hs', hstate'⟩ :=
      processReadLoop_of_recv hready hstate hrest ht htstate roundsLeft_lt
    have hprocess : (s.recv b).processRead = .noRequest s' := hs'
    have hgoes : ∀ bytes : Bytes, (s.recv b).readIdx + bytes.length ≤ readBufferSize →
        s'.Ready ∧ s'.readIdx = (s.recv b).readIdx ∧
          ((s.recv b).recv bytes).processRead = (s'.recv bytes).processRead :=
      fun bytes hbytes => processReadLoop_recv hready hstate hprocess hstate' hbytes
        roundsLeft_lt roundsLeft_lt
    obtain ⟨hready', hread', hloop⟩ := hgoes _ hall
    have hheaders' : (s'.recv rest.flatten).InHeaders :=
      ⟨t, (hgoes _ hrest).2.2 ▸ ht, htstate⟩
    have hserve : s.serve (b :: (rest ++ [last])) = s'.serve (rest ++ [last]) := by
      conv_lhs => unfold serve
      rw [readOnce_eq hb hroom_b, Option.bind_some, hprocess]
    rw [List.cons_append, hserve, ih hready' hstate' (fun b' hb' => hne b' (.tail _ hb'))
      (hread' ▸ hall) hheaders', List.flatten_cons, ← recv_recv, hloop]

/-! ## A line that is bad

A `\n` that is not behind a `\r`, or a `\r` with something else behind it, makes
the line bad. `parse_line` stops there and leaves the place as it is, and
`process_read` goes on reading, since a bad line is not among the cases that end
its loop with an answer. -/

/-- The line has a `\r` or a `\n` that is not the end of a line. -/
structure BadLine (s : HttpConn) (k : ℕ) : Prop where
  plain : s.Plain k
  checked : s.checkedIdx ≤ k
  received : k < s.readIdx
  bad : s.readBuf k = lf ∨ s.readBuf k = cr ∧ k + 1 < s.readIdx ∧ s.readBuf (k + 1) ≠ lf

/-- `parse_line` stops at a bad line, and it does so again. -/
theorem BadLine.processRead (h : s.BadLine k) (hready : s.Ready)
    (hstate : s.checkState ≠ .content) :
    s.processRead = .noRequest { s with checkedIdx := k } := by
  have hreceived := h.received
  have hline : s.parseLine = ({ s with checkedIdx := k }, .lineBad) := by
    rw [parseLine_skip h.checked hreceived.le h.plain]
    obtain ⟨left, hleft⟩ : ∃ left, s.readIdx - k = left + 1 := ⟨s.readIdx - k - 1, by omega⟩
    unfold parseLine
    simp only [hleft, parseLineLoop]
    rcases h.bad with hlf | ⟨hcr, hnext, hlf⟩
    · have hprev : ¬(1 < k ∧ s.readBuf (k - 1) = cr) := by
        rintro ⟨hpos, hprev⟩
        exact hready.clean_of_plain h.checked h.plain (by omega) hprev
      rw [hlf, if_neg (by decide), if_pos rfl, if_neg hprev]
    · rw [if_pos hcr, if_neg (show k + 1 ≠ s.readIdx by omega), if_neg hlf]
  exact processReadLoop_stops ((nextLine_of_ne _ hstate).trans hline) LineStatus.noConfusion

theorem BadLine.recv (h : s.BadLine k) :
    (s.recv c).BadLine k ∧ (({ s with checkedIdx := k } : HttpConn).recv c).BadLine k := by
  have hreceived := h.received
  have hbuf : ∀ i, i < s.readIdx → (s.recv c).readBuf i = s.readBuf i :=
    fun i hi => storeAt_of_lt hi
  have hreceived' : k < (s.recv c).readIdx := Nat.lt_add_right _ hreceived
  have hbad : (s.recv c).readBuf k = lf ∨
      (s.recv c).readBuf k = cr ∧ k + 1 < (s.recv c).readIdx ∧ (s.recv c).readBuf (k + 1) ≠ lf := by
    rw [hbuf k hreceived]
    refine h.bad.imp_right fun ⟨hcr, hnext, hlf⟩ => ⟨hcr, Nat.lt_add_right _ hnext, ?_⟩
    rwa [hbuf _ hnext]
  refine ⟨⟨fun i hi hik => ?_, h.checked, hreceived', hbad⟩,
    ⟨fun i hi hik => ?_, Nat.le_refl k, hreceived', hbad⟩⟩
  · rw [hbuf i (by omega)]
    exact h.plain i hi hik
  · exact absurd hi (Nat.not_le.mpr hik)

/-- **A bad line is never answered**, and never refused: whatever else comes, as
long as there is room for it, more is waited for, at the same place. -/
theorem serve_of_badLine (h : s.BadLine k) (hready : s.Ready) (hstate : s.checkState ≠ .content)
    {chunks : List Bytes} (hne : ∀ b ∈ chunks, b ≠ []) (hchunks : chunks ≠ [])
    (hroom : s.readIdx + chunks.flatten.length ≤ readBufferSize) :
    s.serve chunks = some (.noRequest { s.recv chunks.flatten with checkedIdx := k }) := by
  induction chunks generalizing s with
  | nil => exact absurd rfl hchunks
  | cons c chunks ih =>
    rw [List.flatten_cons, List.length_append] at hroom
    have hroom_c : s.readIdx + c.length ≤ readBufferSize := by omega
    have hprocess := h.recv.1.processRead (recv_ready hready hroom_c) hstate
    unfold serve
    rw [readOnce_eq (hne c (.head _)) hroom_c, Option.bind_some, hprocess]
    have hready' : ({ s.recv c with checkedIdx := k } : HttpConn).Ready :=
      skip_ready (recv_ready hready hroom_c) h.recv.1.checked h.recv.1.received.le h.recv.1.plain
    cases chunks with
    | nil =>
      rw [List.flatten_singleton]
      rfl
    | cons d chunks =>
      have hrec := ih (s := { s.recv c with checkedIdx := k }) h.recv.2 hready' hstate
        (fun b hb => hne b (.tail _ hb)) (List.cons_ne_nil d chunks)
        (show s.readIdx + c.length + _ ≤ _ by omega)
      rw [List.flatten_cons (l := c), ← recv_recv]
      exact hrec

/-- A `\n` in the middle of a line, with more to come. -/
theorem serve_of_badLine_lf : (init.recv [71, 10, 72]).serve [[10], [13, 10]]
    = some (.noRequest { (init.recv [71, 10, 72]).recv [10, 13, 10] with checkedIdx := 1 }) :=
  serve_of_badLine (k := 1)
    ⟨fun i _ hi => by
      obtain rfl : i = 0 := by omega
      decide, by decide, by decide, .inl rfl⟩
    (recv_ready ready_init (by decide)) CheckState.noConfusion (by decide) (by decide) (by decide)

end HttpConn

end TinyWeb
