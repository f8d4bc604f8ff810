import LinuxStudy.HttpAnswer
import LinuxStudy.Runs

/-!
# Sending the answer

`write` hands `writev` what is left of two pieces of memory, and computes what is
left from what was taken. It is called again when the socket takes more, so that
an answer is sent by any number of calls of `writev`, each of which takes as much
as it likes.

What is left is computed from `bytes_have_send`, which counts from the beginning,
but it is taken from `m_iv[0].iov_len`, which is what was left the last time. The
two agree as long as a call of `writev` does not end within the headers a second
time (`Right`), and from then on less of the headers is handed to `writev` than is
left of them (`Doomed`). So the client is sent what it should be, or something else
(**`sent_right_iff`**), and where there is no file the loop does not even end
(**`never_sent`**).

What was sent is recorded as the places it was taken from (`Place`): places of
the write buffer, and places counted from where the file is mapped.
-/

namespace TinyWeb

/-- A place that is sent. -/
inductive Place
  /-- `m_write_buf[i]`. -/
  | buf (i : ℕ)
  /-- `m_file_address[i]`, which is before the file if `i` is negative. -/
  | file (i : ℤ)
  deriving DecidableEq

/-- **`http_conn`**, what it has for writing, and what was sent. -/
structure Sending where
  writeIdx : ℕ
  /-- `m_iv[0]`, with its base as a place in the write buffer. -/
  base₀ : ℕ
  len₀ : ℕ
  /-- `m_iv[1]`, with its base as a place in the file. -/
  base₁ : ℤ
  len₁ : ℕ
  ivCount : ℕ
  bytesToSend : ℤ
  bytesHaveSend : ℕ
  sent : List Place

/-- What `writev` returns, where it is no error. -/
inductive Writev
  /-- So many bytes are taken. -/
  | took (n : ℕ)
  /-- `EAGAIN`. -/
  | again

namespace Sending

/-- The end of `process_write`. Without a file `m_iv[1]` is what it was. -/
def start (a : Answer) (base₁ : ℤ) (len₁ : ℕ) : Sending where
  writeIdx := a.writeBuf.length
  base₀ := 0
  len₀ := a.writeBuf.length
  base₁ := if a.ivCount = 2 then 0 else base₁
  len₁ := if a.ivCount = 2 then a.file.length else len₁
  ivCount := a.ivCount
  bytesToSend := Int.bmod (a.writeBuf.length + a.file.length) (2 ^ 32)
  bytesHaveSend := 0
  sent := []

/-- How much `writev` is handed. -/
def handed (s : Sending) : ℕ := s.len₀ + if s.ivCount = 2 then s.len₁ else 0

/-- What `writev` takes first, second and so on. -/
def gathered (s : Sending) (i : ℕ) : Place :=
  if i < s.len₀ then .buf (s.base₀ + i) else .file (s.base₁ + (i - s.len₀ : ℕ))

/-- What is left after `writev`. The length of `m_iv[1]` is an `int` that is
converted to `size_t`; a negative one is never used. -/
def advance (s : Sending) (n : ℕ) : Sending :=
  let s := { s with
    bytesHaveSend := s.bytesHaveSend + n
    bytesToSend := s.bytesToSend - n
    sent := s.sent ++ (List.range n).map s.gathered }
  if s.len₀ ≤ s.bytesHaveSend then
    { s with
      len₀ := 0
      base₁ := s.bytesHaveSend - s.writeIdx
      len₁ := s.bytesToSend.toNat }
  else
    { s with
      base₀ := s.bytesHaveSend
      len₀ := s.len₀ - s.bytesHaveSend }

/-- A round of the loop of **`write`**, as long as there is something to send.
With `EAGAIN` it returns, and is called again when more can be sent. -/
def step (s : Sending) : Writev → Option Sending
  | .took n => if 0 < s.bytesToSend ∧ n ≤ s.handed then some (s.advance n) else none
  | .again => if 0 < s.bytesToSend then some s else none

end Sending

/-! ## What should be sent

The answer is a list of places, those of the headers in the write buffer and those
of the file. A place tells where a byte is taken from, and not which byte it is,
since the mistake is one of places: the piece that is handed to `writev` for the
headers begins where it should, but it may be too short.

After a call that ends within the headers all that was sent so far is subtracted
from the length that was left. The first time this is right. The second time it
takes off too much, and the bytes that are missing at the end are never handed to
`writev`. -/

/-- The places of an answer, one after the other. -/
def place (writeIdx i : ℕ) : Place :=
  if i < writeIdx then .buf i else .file (i - writeIdx : ℕ)

/-- So many calls of `writev` end within the headers, if so much was sent before. -/
def endsInHeaders (writeIdx : ℕ) : ℕ → List Writev → ℕ
  | _, [] => 0
  | sent, .again :: rest => endsInHeaders writeIdx sent rest
  | sent, .took n :: rest =>
    (if 0 < sent + n ∧ sent + n < writeIdx then 1 else 0) + endsInHeaders writeIdx (sent + n) rest

namespace Sending

variable {s t : Sending} {w f : ℕ} {results : List Writev}

/-- What is counted agrees. -/
structure Counts (s : Sending) (w f : ℕ) : Prop where
  writeIdx : s.writeIdx = w
  ivCount : s.ivCount ≠ 2 → f = 0
  toSend : s.bytesToSend + s.bytesHaveSend = (w + f : ℕ)
  length : s.sent.length = s.bytesHaveSend

/-- **What was sent is right**, and what is handed to `writev` next is what
follows. -/
structure Right (s : Sending) (w f : ℕ) : Prop extends s.Counts w f where
  sent : s.sent = (List.range s.bytesHaveSend).map (place w)
  headers : s.bytesHaveSend < w → s.base₀ = s.bytesHaveSend ∧ s.len₀ = w - s.bytesHaveSend ∧
    (s.ivCount = 2 → s.base₁ = 0 ∧ s.len₁ = f)
  file : w ≤ s.bytesHaveSend → s.len₀ = 0 ∧
    (s.ivCount = 2 → s.base₁ = s.bytesHaveSend - w ∧ s.len₁ + s.bytesHaveSend = w + f)

/-- **What was sent is wrong, or will be**: less of the headers is handed to
`writev` than is left of them. -/
structure Doomed (s : Sending) (w f : ℕ) : Prop extends s.Counts w f where
  doomed : s.ivCount = 2 ∧ (∃ i p, s.sent[i]? = some p ∧ p ≠ place w i) ∨
    s.bytesHaveSend < w ∧ s.len₀ < w - s.bytesHaveSend

theorem counts_advance (h : s.Counts w f) (n : ℕ) : (s.advance n).Counts w f := by
  unfold advance
  have hlength := h.length
  have hsend := h.toSend
  simp only
  split <;>
    · refine ⟨h.writeIdx, h.ivCount, ?_, ?_⟩
      · simp only
        omega
      · simp [hlength]

/-- What is handed to `writev` is what follows. -/
theorem Right.gathered_eq (h : s.Right w f) {i : ℕ} (hi : i < s.handed) :
    s.gathered i = place w (s.bytesHaveSend + i) := by
  unfold handed at hi
  unfold gathered place
  rcases Nat.lt_or_ge s.bytesHaveSend w with hlt | hge
  · obtain ⟨hbase, hlen, hfile⟩ := h.headers hlt
    by_cases hin : i < s.len₀
    · rw [if_pos hin, if_pos (by omega), hbase]
    · have hcount : s.ivCount = 2 := by
        by_contra hne
        rw [if_neg hne] at hi
        omega
      rw [if_neg hin, if_neg (by omega), (hfile hcount).1]
      congr 1
      omega
  · obtain ⟨hlen, hfile⟩ := h.file hge
    have hcount : s.ivCount = 2 := by
      by_contra hne
      rw [if_neg hne] at hi
      omega
    rw [if_neg (by omega), if_neg (by omega), (hfile hcount).1]
    congr 1
    omega

theorem Right.sent_advance (h : s.Right w f) {n : ℕ} (hn : n ≤ s.handed) :
    s.sent ++ (List.range n).map s.gathered
      = (List.range (s.bytesHaveSend + n)).map (place w) := by
  rw [h.sent, List.range_add, List.map_append, List.map_map]
  congr 1
  refine List.map_congr_left (fun i hi => ?_)
  exact h.gathered_eq ((List.mem_range.mp hi).trans_le hn)

/-- No more is handed to `writev` than is left. -/
theorem Right.handed_le (h : s.Right w f) (hle : s.bytesHaveSend ≤ w + f) :
    s.bytesHaveSend + s.handed ≤ w + f := by
  unfold handed
  rcases Nat.lt_or_ge s.bytesHaveSend w with hlt | hge
  · obtain ⟨-, hlen, hfile⟩ := h.headers hlt
    split
    · next hcount =>
      rw [hlen, (hfile hcount).2]
      omega
    · omega
  · obtain ⟨hlen, hfile⟩ := h.file hge
    split
    · next hcount =>
      have := (hfile hcount).2
      omega
    · omega

/-- **A call of `writev`** leaves what is handed to it next right, if it does not
end within the headers, or if it is the first to do so. -/
theorem Right.advance (h : s.Right w f) (hle : s.bytesHaveSend ≤ w + f) {n : ℕ}
    (hn : n ≤ s.handed) (hends : s.bytesHaveSend = 0 ∨ w ≤ s.bytesHaveSend + n) :
    (s.advance n).Right w f := by
  have hcounts := counts_advance h.toCounts n
  have hsent := h.sent_advance hn
  have hsend := h.toSend
  have hw := h.writeIdx
  have hhanded := h.handed_le hle
  refine ⟨hcounts, ?_, fun hlt => ?_, fun hge => ?_⟩
  · unfold Sending.advance
    simp only
    split <;> exact hsent
  · -- it is the first to end within the headers
    have hlt' : s.bytesHaveSend + n < w := by
      unfold Sending.advance at hlt
      simp only at hlt
      split at hlt <;> exact hlt
    have hzero : s.bytesHaveSend = 0 := by omega
    obtain ⟨-, hlen, hfile⟩ := h.headers (by omega)
    unfold Sending.advance
    simp only
    rw [if_neg (by omega)]
    exact ⟨rfl, by simp only; omega, hfile⟩
  · have hge' : w ≤ s.bytesHaveSend + n := by
      unfold Sending.advance at hge
      simp only at hge
      split at hge <;> exact hge
    have hlen : s.len₀ ≤ s.bytesHaveSend + n := by
      rcases Nat.lt_or_ge s.bytesHaveSend w with hlt | hge
      · have := (h.headers hlt).2.1
        omega
      · have := (h.file hge).1
        omega
    unfold Sending.advance
    simp only
    rw [if_pos hlen]
    refine ⟨rfl, fun _ => ⟨by simp only; omega, ?_⟩⟩
    simp only
    omega

/-- **A second call that ends within the headers** leaves less to be handed to
`writev` than there is. -/
theorem Right.doomed (h : s.Right w f) {n : ℕ} (hpos : 0 < s.bytesHaveSend)
    (hends : s.bytesHaveSend + n < w) : (s.advance n).Doomed w f := by
  refine ⟨counts_advance h.toCounts n, .inr ?_⟩
  obtain ⟨-, hlen, -⟩ := h.headers (by omega)
  unfold Sending.advance
  simp only
  split
  · exact ⟨hends, by simp only; omega⟩
  · exact ⟨hends, by simp only; omega⟩

/-- It stays so. -/
theorem Doomed.advance (h : s.Doomed w f) {n : ℕ} (hn : n ≤ s.handed) :
    (s.advance n).Doomed w f := by
  refine ⟨counts_advance h.toCounts n, ?_⟩
  have hlength := h.length
  have hsent : (s.advance n).sent = s.sent ++ (List.range n).map s.gathered ∧
      (s.advance n).ivCount = s.ivCount := by
    unfold Sending.advance
    simp only
    split <;> exact ⟨rfl, rfl⟩
  rcases h.doomed with ⟨hcount, i, p, hp, hne⟩ | ⟨hlt, hless⟩
  · refine .inl ⟨hsent.2.trans hcount, i, p, ?_, hne⟩
    obtain ⟨hi, -⟩ := List.getElem?_eq_some_iff.mp hp
    rw [hsent.1, List.getElem?_append_left hi, hp]
  · rcases Nat.lt_or_ge s.len₀ n with hlong | hshort
    · -- the file is sent where the headers go on
      have hcount : s.ivCount = 2 := by
        by_contra hne
        unfold handed at hn
        rw [if_neg hne] at hn
        omega
      refine .inl ⟨hsent.2.trans hcount, s.bytesHaveSend + s.len₀, s.gathered s.len₀, ?_, ?_⟩
      · rw [hsent.1, List.getElem?_append_right (by omega), hlength, Nat.add_sub_cancel_left,
          List.getElem?_map, List.getElem?_range hlong]
        rfl
      · unfold gathered place
        rw [if_neg (Nat.lt_irrefl _), if_pos (by omega)]
        exact Place.noConfusion
    · refine .inr ?_
      unfold Sending.advance
      simp only
      split
      · exact ⟨by simp only; omega, by simp only; omega⟩
      · exact ⟨by simp only; omega, by simp only; omega⟩

/-- What is sent at the start is right. -/
theorem right_start (a : Answer) (base₁ : ℤ) (len₁ : ℕ) (hcount : a.ivCount ≠ 2 → a.file = [])
    (hsize : a.writeBuf.length + a.file.length < 2 ^ 31) (hpos : 0 < a.writeBuf.length) :
    (start a base₁ len₁).Right a.writeBuf.length a.file.length where
  writeIdx := rfl
  ivCount hne := by rw [hcount hne]; rfl
  toSend := by
    have hbmod : Int.bmod (a.writeBuf.length + a.file.length) (2 ^ 32)
        = (a.writeBuf.length + a.file.length : ℕ) := by
      rw [Int.bmod_eq_of_le] <;> omega
    simp only [start, hbmod, Nat.cast_zero, Int.add_zero]
  length := rfl
  sent := rfl
  headers _ := by
    refine ⟨rfl, rfl, fun htwo => ?_⟩
    unfold start
    exact ⟨if_pos htwo, if_pos htwo⟩
  file hge := absurd hpos (Nat.not_lt.mpr hge)

/-- Behind the headers no call ends within them. -/
theorem endsInHeaders_of_le {sent : ℕ} (h : w ≤ sent) : endsInHeaders w sent results = 0 := by
  induction results generalizing sent with
  | nil => rfl
  | cons r results ih =>
    cases r with
    | again => exact ih h
    | took n =>
      unfold endsInHeaders
      rw [if_neg (by omega), Nat.zero_add]
      exact ih (h.trans (Nat.le_add_right _ _))

theorem exec_doomed (h : s.Doomed w f) (hrun : Runs.exec step s results = some t) :
    t.Doomed w f := by
  refine Runs.exec_invariant' (fun s => s.Doomed w f) (fun {s u r} hs hstep => ?_) h hrun
  unfold step at hstep
  cases r <;> simp only at hstep <;> split at hstep <;> cases hstep
  · next hcond => exact hs.advance hcond.2
  · exact hs

theorem bytesHaveSend_advance (s : Sending) (n : ℕ) :
    (s.advance n).bytesHaveSend = s.bytesHaveSend + n := by
  unfold advance
  simp only
  split <;> rfl

/-- **What a run leaves.** It is right if no call ends within the headers, or if
it is the first to do so, and otherwise it is doomed. -/
theorem exec_right (h : s.Right w f) (hle : s.bytesHaveSend ≤ w + f)
    (hrun : Runs.exec step s results = some t) :
    (endsInHeaders w s.bytesHaveSend results ≤ (if s.bytesHaveSend = 0 then 1 else 0) →
      t.Right w f) ∧
    ((if s.bytesHaveSend = 0 then 1 else 0) < endsInHeaders w s.bytesHaveSend results →
      t.Doomed w f) := by
  induction results generalizing s with
  | nil =>
    obtain rfl : s = t := Option.some.inj hrun
    exact ⟨fun _ => h, fun hlt => absurd hlt (Nat.not_lt_zero _)⟩
  | cons r results ih =>
    obtain ⟨u, hstep, hrest⟩ := Runs.exec_cons_eq_some.mp hrun
    unfold step at hstep
    cases r with
    | again =>
      simp only at hstep
      split at hstep <;> cases hstep
      exact ih h hle hrest
    | took n =>
      simp only at hstep
      split at hstep <;> cases hstep
      next hcond =>
      have hhanded := h.handed_le hle
      have hcount := bytesHaveSend_advance s n
      unfold endsInHeaders
      by_cases hends : s.bytesHaveSend = 0 ∨ w ≤ s.bytesHaveSend + n
      · have hrec := ih (h.advance hle hcond.2 hends) (by omega) hrest
        rw [hcount] at hrec
        rcases Nat.lt_or_ge (s.bytesHaveSend + n) w with hlt | hge
        · have hzero : s.bytesHaveSend = 0 := by omega
          rw [if_pos hzero]
          rcases Nat.eq_zero_or_pos n with hn | hn
          · rw [if_neg (by omega), Nat.zero_add]
            rwa [if_pos (by omega)] at hrec
          · rw [if_pos (by omega)]
            rw [if_neg (by omega)] at hrec
            exact ⟨fun hone => hrec.1 (by omega), fun hone => hrec.2 (by omega)⟩
        · rw [endsInHeaders_of_le hge] at hrec ⊢
          rw [if_neg (by omega)]
          exact ⟨fun _ => hrec.1 (Nat.zero_le _), fun hone => absurd hone (Nat.not_lt_zero _)⟩
      · have hdoomed := exec_doomed (h.doomed (n := n) (by omega) (by omega)) hrest
        rw [if_pos (by omega), if_neg (by omega)]
        exact ⟨fun hnone => by omega, fun _ => hdoomed⟩

/-! ## What is sent

The bytes are read off the places. Two places may hold the same byte, so an answer
may be right in its bytes where the places are not, and therefore the equivalence
is about places; that the places are right is enough for the bytes. -/

/-- The places of the answer. -/
def answerPlaces (a : Answer) : List Place :=
  (List.range (a.writeBuf.length + a.file.length)).map (place a.writeBuf.length)

/-- The byte at a place, which is unknown where it is neither of the buffer nor of
the file. -/
def byteAt (a : Answer) : Place → Option UInt8
  | .buf i => a.writeBuf[i]?
  | .file (.ofNat i) => a.file[i]?
  | .file (.negSucc _) => none

/-- The bytes of the answer. -/
theorem map_byteAt (a : Answer) :
    (answerPlaces a).map (byteAt a) = (a.writeBuf ++ a.file).map some := by
  refine List.ext_getElem (by simp [answerPlaces]) (fun i hi hi' => ?_)
  rw [List.length_map] at hi'
  simp only [answerPlaces, List.getElem_map, List.getElem_range, place]
  split
  · next hlt =>
    rw [List.getElem_append_left hlt]
    exact List.getElem?_eq_getElem hlt
  · next hge =>
    have hlt : i - a.writeBuf.length < a.file.length := by
      rw [List.length_append] at hi'
      omega
    rw [List.getElem_append_right (Nat.le_of_not_lt hge)]
    exact List.getElem?_eq_getElem hlt

variable {linger : Bool} {file : Bytes} {code : HttpCode} {a : Answer}

/-- The start of what `process_write` leaves. -/
theorem right_of_processWrite (hfile : file.length < 2 ^ 31 - 300)
    (ha : processWrite linger file code = some a) (base₁ : ℤ) (len₁ : ℕ) :
    (start a base₁ len₁).Right a.writeBuf.length a.file.length := by
  obtain ⟨body, -, hpos, hle, hsome, hnone⟩ :=
    (processWrite_spec linger (hfile.trans_le (Nat.sub_le _ _)) code).2 a ha
  by_cases hcode : code = .fileRequest
  · obtain ⟨-, hfile', hcount⟩ := hsome hcode
    exact right_start a base₁ len₁ (fun hne => absurd hcount hne) (by rw [hfile']; omega) hpos
  · obtain ⟨hfile', hcount⟩ := hnone hcode
    exact right_start a base₁ len₁ (fun _ => hfile') (by rw [hfile', List.length_nil]; omega) hpos

/-- **The answer is sent as it is** if and only if at most one call of `writev`
ends within the headers, over all the calls of `write` until everything is
accounted for. -/
theorem sent_right_iff (hfile : file.length < 2 ^ 31 - 300)
    (ha : processWrite linger file code = some a) (base₁ : ℤ) (len₁ : ℕ)
    (hrun : Runs.exec step (start a base₁ len₁) results = some t) (hdone : t.bytesToSend = 0) :
    t.sent = answerPlaces a ↔ endsInHeaders a.writeBuf.length 0 results ≤ 1 := by
  have hexec := exec_right (right_of_processWrite hfile ha base₁ len₁) (Nat.zero_le _) hrun
  rw [show (start a base₁ len₁).bytesHaveSend = 0 from rfl, if_pos rfl] at hexec
  constructor
  · intro hsent
    by_contra hmore
    have hdoomed := hexec.2 (Nat.lt_of_not_le hmore)
    have hsend := hdoomed.toSend
    rcases hdoomed.doomed with ⟨-, i, p, hp, hne⟩ | ⟨hlt, -⟩
    · rw [hsent, answerPlaces, List.getElem?_map] at hp
      obtain ⟨k, hk, rfl⟩ := Option.map_eq_some_iff.mp hp
      obtain ⟨hi, hik⟩ := List.getElem?_eq_some_iff.mp hk
      rw [List.getElem_range] at hik
      exact hne (hik ▸ rfl)
    · omega
  · intro hone
    have hright := hexec.1 hone
    have hsend := hright.toSend
    rw [hright.sent]
    unfold answerPlaces
    congr 2
    omega

/-- The answer with a page of one byte. -/
def pageAnswer : Answer := ⟨addHeaders (addStatusLine [] 200 (str "OK")) false 1, [65], 2⟩

/-- Sent with two calls that end within the headers, the client is sent the byte
before the page. -/
theorem sent_right_iff_page : ∃ t,
    Runs.exec step (start pageAnswer 0 0) [.took 2, .took 3, .again, .took 49, .took 2] = some t ∧
      t.bytesToSend = 0 ∧ .file (-1) ∈ t.sent ∧
      (t.sent = answerPlaces pageAnswer ↔ endsInHeaders pageAnswer.writeBuf.length 0
        [.took 2, .took 3, .again, .took 49, .took 2] ≤ 1) := by
  have hrun : (Runs.exec step (start pageAnswer 0 0)
      [.took 2, .took 3, .again, .took 49, .took 2]).map
        (fun t => (t.bytesToSend, decide (.file (-1) ∈ t.sent))) = some (0, true) := by
    decide +kernel
  obtain ⟨t, ht, heq⟩ := Option.map_eq_some_iff.mp hrun
  obtain ⟨hdone, hbefore⟩ := Prod.mk.inj heq
  exact ⟨t, ht, hdone, of_decide_eq_true hbefore, sent_right_iff
    (show ([65] : Bytes).length < 2 ^ 31 - 300 by decide)
    (show processWrite false [65] .fileRequest = some pageAnswer from rfl) 0 0 ht hdone⟩

theorem endsInHeaders_append {sent : ℕ} (more : List Writev) :
    endsInHeaders w sent results ≤ endsInHeaders w sent (results ++ more) := by
  induction results generalizing sent with
  | nil => exact Nat.zero_le _
  | cons r results ih =>
    cases r with
    | again => exact ih
    | took n => exact Nat.add_le_add_left ih _

/-- **An answer without a file** is never sent after two calls that end within the
headers: whatever `writev` takes after them, there is always more to send. -/
theorem never_sent (hfile : file.length < 2 ^ 31 - 300)
    (ha : processWrite linger file code = some a) (hcode : code ≠ .fileRequest) (base₁ : ℤ)
    (len₁ : ℕ) (hends : 1 < endsInHeaders a.writeBuf.length 0 results) {more : List Writev}
    (hrun : Runs.exec step (start a base₁ len₁) (results ++ more) = some t) :
    0 < t.bytesToSend := by
  have hcount : a.ivCount = 1 := by
    obtain ⟨body, -, -, -, -, hnone⟩ :=
      (processWrite_spec linger (hfile.trans_le (Nat.sub_le _ _)) code).2 a ha
    exact (hnone hcode).2
  have hexec := exec_right (right_of_processWrite hfile ha base₁ len₁) (Nat.zero_le _) hrun
  rw [show (start a base₁ len₁).bytesHaveSend = 0 from rfl, if_pos rfl] at hexec
  have hdoomed := hexec.2 (hends.trans_le (endsInHeaders_append more))
  have hsame : t.ivCount = a.ivCount := by
    refine Runs.exec_invariant' (fun s => s.ivCount = a.ivCount) (fun {s u r} hs hstep => ?_)
      (show (start a base₁ len₁).ivCount = a.ivCount from rfl) hrun
    unfold step at hstep
    cases r <;> simp only at hstep <;> split at hstep <;> cases hstep
    · unfold Sending.advance
      simp only
      split <;> exact hs
    · exact hs
  have hsend := hdoomed.toSend
  rcases hdoomed.doomed with ⟨htwo, -⟩ | ⟨hlt, -⟩
  · exact absurd (hcount.symm.trans (hsame.symm.trans htwo)) (by decide)
  · omega

/-- The answer to a bad request. -/
def badRequestAnswer : Answer :=
  ⟨addHeaders (addStatusLine [] 404 (str "Not Found")) false 49 ++
    str "The requested file was not found on this server.\n", [], 1⟩

/-- Taken in small parts it is never sent. -/
theorem never_sent_badRequest : ∃ t,
    Runs.exec step (start badRequestAnswer 7 7) ([.took 60, .took 1] ++ [.took 0, .took 0])
      = some t ∧
      0 < t.bytesToSend := by
  have hrun : (Runs.exec step (start badRequestAnswer 7 7)
      ([.took 60, .took 1] ++ [.took 0, .took 0])).isSome := by
    decide +kernel
  obtain ⟨t, ht⟩ := Option.isSome_iff_exists.mp hrun
  exact ⟨t, ht, never_sent (show ([] : Bytes).length < 2 ^ 31 - 300 by decide)
    (show processWrite false [] .badRequest = some badRequestAnswer by decide +kernel)
    HttpCode.noConfusion 7 7 (by decide +kernel) ht⟩

/-- **What the client receives.** There is an answer for an internal error, a bad
request, a forbidden file and a file with contents, and for nothing else; a file
that does not exist has none. If at most one call of `writev` ends within the
headers, the client receives a status line, headers, an empty line and a body that
is as long as the reader of headers says. -/
theorem answer_received (linger : Bool) (hfile : file.length < 2 ^ 31 - 300) (code : HttpCode) :
    ((processWrite linger file code).isSome ↔ code = .internalError ∨ code = .badRequest ∨
      code = .forbiddenRequest ∨ code = .fileRequest ∧ file ≠ []) ∧
    ∀ a, processWrite linger file code = some a →
      ∃ bytes body, ReadsBack linger bytes body ∧ (code = .fileRequest → body = file) ∧
        ∀ base₁ len₁ results t, Runs.exec step (start a base₁ len₁) results = some t →
          t.bytesToSend = 0 → endsInHeaders a.writeBuf.length 0 results ≤ 1 →
            t.sent.map (byteAt a) = bytes.map some := by
  have hspec := processWrite_spec linger (hfile.trans_le (Nat.sub_le _ _)) code
  refine ⟨hspec.1, fun a ha => ?_⟩
  obtain ⟨body, hreads, -, -, hsome, -⟩ := hspec.2 a ha
  refine ⟨a.writeBuf ++ a.file, body, hreads, fun hcode => (hsome hcode).1,
    fun base₁ len₁ results t hrun hdone hone => ?_⟩
  have hright := (exec_right (right_of_processWrite hfile ha base₁ len₁)
    (Nat.zero_le _) hrun).1 hone
  have hsend := hright.toSend
  have hsent : t.sent = answerPlaces a := by
    rw [hright.sent]
    unfold answerPlaces
    congr 2
    omega
  rw [hsent, map_byteAt]

/-- A page of one byte, sent with one call that ends within the headers. -/
theorem answer_received_page : ∃ t bytes,
    Runs.exec step (start pageAnswer 0 0) [.took 2, .again, .took 54] = some t ∧
      t.sent.map (byteAt pageAnswer) = bytes.map some ∧ ReadsBack false bytes [65] := by
  have hrun : (Runs.exec step (start pageAnswer 0 0) [.took 2, .again, .took 54]).map
      Sending.bytesToSend = some 0 := by
    decide +kernel
  obtain ⟨t, ht, hdone⟩ := Option.map_eq_some_iff.mp hrun
  obtain ⟨bytes, body, hreads, hfile, hsent⟩ :=
    (answer_received false (show ([65] : Bytes).length < 2 ^ 31 - 300 by decide)
      .fileRequest).2 pageAnswer rfl
  obtain rfl := hfile rfl
  exact ⟨t, bytes, ht, hsent 0 0 _ t ht hdone (by decide +kernel), hreads⟩

end Sending

end TinyWeb
