import Mathlib.Data.List.Basic
import Mathlib.Data.List.TakeWhile

/-!
# Messages in a stream

Messages are written to a stream one after the other, each followed by a
terminator that occurs in none of them. The reader gets the stream in blocks
and has no say in where one ends and the next begins: a block may have part
of a message, or several.

The simplest reader takes of each block what stands before the first
terminator and forgets the rest (`heads`). `heads_eq_iff_cut` says for which
blocks that is enough: a block has nothing, or one whole message with or
without its terminator, or the terminator its message came without (`Cut`).
A block that goes on after a terminator loses what goes on, and a block that
ends within a message gives two pieces for one.

Another reader hands each block that is not empty to a parser, which fails on
what is not a whole text, and for which a terminator ends the input
(`parseAll`). Here messages come with two terminators. The parser gets
through, and gets every text, exactly when each block is one text with both
terminators (`parseAll_eq_some_iff`): a block that ends early is followed by
one the parser fails on, and a block that goes on has lost the start of a
text for good.
-/

namespace Framing

variable {α : Type} [DecidableEq α] {z : α}

/-- What can be sent as a message: something, without the terminator. -/
structure Message (z : α) (m : List α) : Prop where
  ne_nil : m ≠ []
  clean : z ∉ m

instance (z : α) (m : List α) : Decidable (Message z m) :=
  decidable_of_iff (m ≠ [] ∧ z ∉ m) ⟨fun h => ⟨h.1, h.2⟩, fun h => ⟨h.ne_nil, h.clean⟩⟩

/-- The stream of a list of messages. -/
def frame (z : α) (ms : List (List α)) : List α := ms.flatMap (fun m => m ++ [z])

/-- What stands before the first terminator. -/
def head (z : α) (b : List α) : List α := b.takeWhile (fun a => a ≠ z)

/-- What the simple reader makes of a list of blocks. -/
def heads (z : α) (bs : List (List α)) : List (List α) :=
  (bs.map (head z)).filter (fun m => m ≠ [])

/-- **Blocks that end where messages do.** The flag says that the terminator
of the message before is still to come. -/
inductive Cut (z : α) : Bool → List (List α) → List (List α) → Prop
  | done : Cut z false [] []
  /-- Nothing. -/
  | empty {p bs ms} : Cut z p bs ms → Cut z p ([] :: bs) ms
  /-- A message with its terminator. -/
  | whole {m bs ms} : Cut z false bs ms → Cut z false ((m ++ [z]) :: bs) (m :: ms)
  /-- A message, its terminator to follow. -/
  | text {m bs ms} : Cut z true bs ms → Cut z false (m :: bs) (m :: ms)
  /-- The terminator that was to follow. -/
  | terminator {bs ms} : Cut z false bs ms → Cut z true ([z] :: bs) ms

/-! ## What the reader takes

Of a block the reader takes what is before the first terminator, and the rest is
lost. What it takes of all blocks is never longer than what the stream has besides
terminators, so if it is to get all messages nothing may be lost. That is how the
converse is shown: whatever part of a message stood behind a terminator in a block
is missed at the end (`heads_ne_of_lost`). -/

theorem head_append_of_notMem {d : List α} (h : z ∉ d) (b : List α) :
    head z (d ++ b) = d ++ head z b := by
  unfold head
  exact List.takeWhile_append_of_pos
    (fun a ha => decide_eq_true (fun haz => h (haz ▸ ha)))

theorem head_cons_self (b : List α) : head z (z :: b) = [] := by
  unfold head
  exact List.takeWhile_cons_of_neg (by simp)

theorem head_append_of_mem {d : List α} (h : z ∈ d) (b : List α) :
    head z (d ++ b) = head z d := by
  obtain ⟨d₁, d₂, rfl, hd₁⟩ := List.eq_append_cons_of_mem h
  rw [List.append_assoc, List.cons_append, head_append_of_notMem hd₁,
    head_append_of_notMem hd₁, head_cons_self, head_cons_self]

theorem Message.head_append {m : List α} (hm : Message z m) (c : List α) :
    head z m = m ∧ head z (m ++ z :: c) = m := by
  refine ⟨?_, ?_⟩
  · have hself := head_append_of_notMem hm.clean []
    rwa [List.append_nil, show head z ([] : List α) = [] from rfl, List.append_nil] at hself
  · rw [head_append_of_notMem hm.clean, head_cons_self, List.append_nil]

theorem heads_cons_of_ne_nil {b : List α} {bs : List (List α)} (h : head z b ≠ []) :
    heads z (b :: bs) = head z b :: heads z bs := by
  unfold heads
  rw [List.map_cons, List.filter_cons_of_pos (by simpa using h)]

theorem Message.heads_cons_text {m : List α} (hm : Message z m) (bs : List (List α)) :
    heads z (m :: bs) = m :: heads z bs := by
  have hhead := (hm.head_append []).1
  rw [heads_cons_of_ne_nil (by rw [hhead]; exact hm.ne_nil), hhead]

theorem Message.heads_cons_whole {m : List α} (hm : Message z m) (c : List α)
    (bs : List (List α)) : heads z ((m ++ z :: c) :: bs) = m :: heads z bs := by
  have hhead := (hm.head_append c).2
  rw [heads_cons_of_ne_nil (by rw [hhead]; exact hm.ne_nil), hhead]

theorem Message.heads_ne_of_append {b c : List α} (hm : Message z (b ++ c)) (hb : b ≠ [])
    (hc : c ≠ []) (bs ms : List (List α)) : heads z (b :: bs) ≠ (b ++ c) :: ms := by
  intro heq
  have hmb : Message z b := ⟨hb, fun hz => hm.clean (List.mem_append_left c hz)⟩
  rw [hmb.heads_cons_text] at heq
  have hbc : b ++ [] = b ++ c := (List.append_nil b).trans (List.cons.inj heq).1
  exact hc (List.append_cancel_left hbc).symm

theorem heads_cons_of_nil {b : List α} {bs : List (List α)} (h : head z b = []) :
    heads z (b :: bs) = heads z bs := by
  unfold heads
  rw [List.map_cons, List.filter_cons_of_neg (by simp [h])]

/-- The reader takes at most what is not a terminator. -/
theorem length_flatten_heads_le (bs : List (List α)) :
    (heads z bs).flatten.length ≤ (bs.flatten.filter (fun a => a ≠ z)).length := by
  induction bs with
  | nil => exact Nat.le_refl 0
  | cons b bs ih =>
    have hhead : (head z b).length ≤ (b.filter (fun a => a ≠ z)).length := by
      have hsub := (List.takeWhile_sublist (l := b) (fun a => decide (a ≠ z))).filter
        (fun a => decide (a ≠ z))
      have hall : ∀ a ∈ b.takeWhile (fun a => decide (a ≠ z)), decide (a ≠ z) = true :=
        fun a ha => List.mem_takeWhile_imp (p := fun a => decide (a ≠ z)) ha
      rw [List.filter_eq_self.mpr hall] at hsub
      exact hsub.length_le
    rw [List.flatten_cons, List.filter_append, List.length_append]
    by_cases h : head z b = []
    · rw [heads_cons_of_nil h]
      exact Nat.le_trans ih (Nat.le_add_left _ _)
    · rw [heads_cons_of_ne_nil h, List.flatten_cons, List.length_append]
      exact Nat.add_le_add hhead ih

omit [DecidableEq α] in
theorem frame_cons (m : List α) (ms : List (List α)) :
    frame z (m :: ms) = m ++ z :: frame z ms := by
  unfold frame
  rw [List.flatMap_cons, List.append_assoc]
  rfl

/-- Without its terminators the stream is the messages. -/
theorem filter_frame {ms : List (List α)} (hms : ∀ m ∈ ms, Message z m) :
    (frame z ms).filter (fun a => a ≠ z) = ms.flatten := by
  induction ms with
  | nil => rfl
  | cons m ms ih =>
    have hm : m.filter (fun a => decide (a ≠ z)) = m :=
      List.filter_eq_self.mpr
        (fun a ha => decide_eq_true (fun h => (hms m List.mem_cons_self).clean (h ▸ ha)))
    have hrest := ih (fun m' hm' => hms m' (List.mem_cons_of_mem _ hm'))
    rw [frame_cons, List.filter_append, hm, List.filter_cons_of_neg (by simp), hrest,
      List.flatten_cons]

/-- **What a block loses is missed.** If something of the stream comes before
the blocks, the reader cannot have all of it. -/
theorem heads_ne_of_lost {bs ms : List (List α)} (hms : ∀ m ∈ ms, Message z m)
    {lost : List α} (hlost : lost ≠ []) (h : frame z ms = lost ++ bs.flatten) :
    heads z bs ≠ ms := by
  intro heq
  have hle := length_flatten_heads_le (z := z) bs
  have hlen := congrArg List.length (filter_frame hms)
  rw [h, List.filter_append, List.length_append] at hlen
  rw [heq] at hle
  -- so nothing but terminators was lost, but what comes first is a message
  have hzero : (lost.filter (fun a => a ≠ z)).length = 0 := by omega
  cases ms with
  | nil =>
    cases lost with
    | nil => exact hlost rfl
    | cons a lost => exact absurd h (by simp [frame])
  | cons m ms =>
    have hm := hms m List.mem_cons_self
    cases m with
    | nil => exact hm.ne_nil rfl
    | cons a m =>
      cases lost with
      | nil => exact hlost rfl
      | cons b lost =>
        have hab : a = b := by
          rw [frame_cons, List.cons_append, List.cons_append] at h
          exact (List.cons.inj h).1
        have hne : a ≠ z := fun haz => hm.clean (haz ▸ List.mem_cons_self)
        rw [← hab, List.filter_cons_of_pos (by simpa using hne)] at hzero
        exact absurd hzero (by simp)

/-! ## Blocks that can be read

The blocks are taken off the stream one by one. The first one can end with the
text of a message, or with its terminator, or before either; or it goes on behind
the terminator, and then something was lost. If it ends with the text, the next
block begins with the terminator and is read as an empty string, so there may be
nothing else in it. The flag of `Cut` keeps account of this. -/

section Inversion

omit [DecidableEq α]

variable {b m c : List α} {bs ms : List (List α)} {p : Bool}

/-- **What the first block can be.** -/
theorem Cut.cons_cases (h : Cut z p (b :: bs) ms) :
    (b = [] ∧ Cut z p bs ms)
      ∨ (p = false ∧ ∃ m ms', ms = m :: ms' ∧ b = m ++ [z] ∧ Cut z false bs ms')
      ∨ (p = false ∧ ∃ ms', ms = b :: ms' ∧ Cut z true bs ms')
      ∨ (p = true ∧ b = [z] ∧ Cut z false bs ms) := by
  cases h with
  | empty h => exact Or.inl ⟨rfl, h⟩
  | whole h => exact Or.inr (Or.inl ⟨rfl, _, _, rfl, rfl, h⟩)
  | text h => exact Or.inr (Or.inr (Or.inl ⟨rfl, _, rfl, h⟩))
  | terminator h => exact Or.inr (Or.inr (Or.inr ⟨rfl, rfl, h⟩))

theorem cut_nil_cons_iff (hms : ∀ m ∈ ms, Message z m) :
    Cut z p ([] :: bs) ms ↔ Cut z p bs ms := by
  refine ⟨fun h => ?_, Cut.empty⟩
  rcases h.cons_cases with ⟨-, h⟩ | ⟨-, m, ms', -, hm, -⟩ | ⟨-, ms', rfl, -⟩ | ⟨-, hz, -⟩
  · exact h
  · exact absurd hm (by simp)
  · exact absurd rfl (hms [] List.mem_cons_self).ne_nil
  · exact absurd hz (by simp)

theorem cut_true_cons_iff : Cut z true ((z :: c) :: bs) ms ↔ c = [] ∧ Cut z false bs ms := by
  refine ⟨fun h => ?_, fun h => ?_⟩
  · rcases h.cons_cases with ⟨hb, -⟩ | ⟨hp, -⟩ | ⟨hp, -⟩ | ⟨-, hb, h⟩
    · exact absurd hb (by simp)
    · exact absurd hp (by simp)
    · exact absurd hp (by simp)
    · exact ⟨(List.cons.inj hb).2, h⟩
  · obtain ⟨rfl, h⟩ := h
    exact Cut.terminator h

theorem Message.cut_text_iff (hm : Message z m) :
    Cut z false (m :: bs) (m :: ms) ↔ Cut z true bs ms := by
  refine ⟨fun h => ?_, Cut.text⟩
  rcases h.cons_cases with ⟨hb, -⟩ | ⟨-, m', ms', -, hb, -⟩ | ⟨-, ms', heq, h⟩ | ⟨hp, -⟩
  · exact absurd hb hm.ne_nil
  · exact absurd (hb ▸ List.mem_append_right m' List.mem_cons_self) hm.clean
  · rwa [(List.cons.inj heq).2]
  · exact absurd hp (by simp)

/-- Where a message is to come, a block that has its terminator. -/
theorem cut_whole_iff :
    Cut z false ((m ++ z :: c) :: bs) (m :: ms) ↔ c = [] ∧ Cut z false bs ms := by
  refine ⟨fun h => ?_, fun h => ?_⟩
  · rcases h.cons_cases with ⟨hb, -⟩ | ⟨-, m', ms', heq, hb, h⟩ | ⟨-, ms', heq, -⟩ | ⟨hp, -⟩
    · exact absurd hb (by simp)
    · obtain ⟨rfl, rfl⟩ := List.cons.inj heq
      exact ⟨(List.cons.inj (List.append_cancel_left hb)).2, h⟩
    · exact absurd (List.cons.inj heq).1 (by simp)
    · exact absurd hp (by simp)
  · obtain ⟨rfl, h⟩ := h
    exact Cut.whole h

/-- Where a message is to come, a block that ends within it. -/
theorem not_cut_of_append (hb : b ≠ []) (hc : c ≠ []) :
    ¬ Cut z false (b :: bs) ((b ++ c) :: ms) := by
  intro h
  rcases h.cons_cases with ⟨hnil, -⟩ | ⟨-, m', ms', heq, hm, -⟩ | ⟨-, ms', heq, -⟩ | ⟨hp, -⟩
  · exact hb hnil
  · have hlen := congrArg List.length hm
    rw [← (List.cons.inj heq).1, List.append_assoc, List.length_append,
      List.length_append] at hlen
    simp at hlen
  · exact hc (List.append_cancel_left ((List.cons.inj heq).1.trans (List.append_nil b).symm))
  · exact absurd hp (by simp)

end Inversion

/-- **When the simple reader is enough**: it gets the messages, each once and
in order, exactly when the blocks end where messages do. -/
theorem heads_eq_iff_cut {bs ms : List (List α)} (p : Bool) (hms : ∀ m ∈ ms, Message z m)
    (h : bs.flatten = (if p then [z] else []) ++ frame z ms) :
    heads z bs = ms ↔ Cut z p bs ms := by
  induction bs generalizing p ms with
  | nil =>
    cases p with
    | true => exact absurd h (by simp)
    | false =>
      cases ms with
      | nil => exact ⟨fun _ => Cut.done, fun _ => rfl⟩
      | cons m ms => exact absurd h (by simp [frame])
  | cons b bs ih =>
    by_cases hb : b = []
    · subst hb
      rw [cut_nil_cons_iff hms, ← ih p hms h]
      exact Eq.congr_left (heads_cons_of_nil rfl)
    rw [List.flatten_cons] at h
    cases p with
    | true =>
      -- a terminator is to come, and gives the reader nothing
      cases b with
      | nil => exact absurd rfl hb
      | cons a c =>
        obtain ⟨rfl, hrest⟩ : a = z ∧ c ++ bs.flatten = frame z ms := by
          simpa using h
        rw [cut_true_cons_iff, heads_cons_of_nil (head_cons_self c)]
        by_cases hc : c = []
        · subst hc
          rw [ih false hms hrest]
          exact (and_iff_right rfl).symm
        · exact iff_of_false (heads_ne_of_lost hms hc hrest.symm) (fun hcut => hc hcut.1)
    | false =>
      cases ms with
      | nil => exact absurd h (by simp [frame, hb])
      | cons m ms =>
        have hm := hms m List.mem_cons_self
        have hms' : ∀ m' ∈ ms, Message z m' := fun m' h' => hms m' (List.mem_cons_of_mem _ h')
        have hstream : b ++ bs.flatten = m ++ z :: frame z ms := by
          rw [h, ← frame_cons]
          rfl
        have htext : b = m → (heads z (b :: bs) = m :: ms ↔ Cut z false (b :: bs) (m :: ms)) := by
          rintro rfl
          have hrest : bs.flatten = [z] ++ frame z ms := List.append_cancel_left hstream
          rw [hm.heads_cons_text, hm.cut_text_iff, ← ih true hms' hrest]
          exact List.cons_inj_right b
        -- the block ends within the message, with it, or after it
        rcases List.append_eq_append_iff.mp hstream with ⟨c, rfl, hrest⟩ | ⟨c, rfl, hrest⟩
        · by_cases hc : c = []
          · exact htext (by rw [hc, List.append_nil])
          · exact iff_of_false (hm.heads_ne_of_append hb hc bs ms) (not_cut_of_append hb hc)
        · cases c with
          | nil => exact htext (List.append_nil m)
          | cons a c =>
            obtain ⟨rfl, hrest'⟩ : z = a ∧ frame z ms = c ++ bs.flatten := List.cons.inj hrest
            rw [hm.heads_cons_whole, cut_whole_iff]
            refine (List.cons_inj_right m).trans ?_
            by_cases hc : c = []
            · subst hc
              rw [ih false hms' hrest'.symm]
              exact (and_iff_right rfl).symm
            · exact iff_of_false (heads_ne_of_lost hms' hc hrest') (fun hcut => hc hcut.1)

/-! ## Blocks that are parsed

Here there are two terminators behind each text, and a block goes to a parser,
which fails if it is not a whole text. A failure is not recovered from. So each
block must be one text with both of its terminators, and in the other cases
something fails or a text is missing. Fewer values than texts come out as soon as
something was lost, since no block gives more than one. -/

section Parsing

variable {β : Type}

/-- Parse every block that is not empty; fail if one fails. -/
def parseAll (parse : List α → Option β) : List (List α) → Option (List β)
  | [] => some []
  | b :: bs =>
    if b = [] then parseAll parse bs
    else (parse b).bind (fun v => (parseAll parse bs).map (fun vs => v :: vs))

/-- The stream of texts, each with two terminators. -/
def frame₂ (z : α) (ts : List (List α × β)) : List α := ts.flatMap (fun t => t.1 ++ [z, z])

/-- **A parser of whole texts**: a terminator ends the input, an empty input
fails, and for each text it gives its value and fails on the parts of it. -/
structure Parses (z : α) (parse : List α → Option β) (t : List α × β) : Prop where
  message : Message z t.1
  value : parse t.1 = some t.2
  /-- What is cut short fails. -/
  incomplete : ∀ {p s}, t.1 = p ++ s → s ≠ [] → parse p = none
  /-- What lacks its start fails. -/
  headless : ∀ {p s}, t.1 = p ++ s → p ≠ [] → s ≠ [] → parse s = none

variable {parse : List α → Option β} {t : List α × β} {b s w lost : List α}
  {bs : List (List α)} {ts : List (List α × β)} {vs : List β}

omit [DecidableEq α] in
theorem parseAll_cons_of_none (hb : b ≠ []) (h : parse b = none) :
    parseAll parse (b :: bs) = none := by
  unfold parseAll
  rw [if_neg hb, h]
  rfl

omit [DecidableEq α] in
theorem parseAll_cons_of_rest (h : parseAll parse bs = none) :
    parseAll parse (b :: bs) = none := by
  unfold parseAll
  rw [h]
  split
  · rfl
  · exact Option.bind_eq_none_iff.mpr (fun v _ => rfl)

omit [DecidableEq α] in
theorem parseAll_cons_of_some (hb : b ≠ []) {v : β} (h : parse b = some v) :
    parseAll parse (b :: bs) = (parseAll parse bs).map (fun vs => v :: vs) := by
  rw [parseAll, if_neg hb, h]
  rfl

/-- A terminator where a text should start. -/
theorem parseAll_eq_none_of_terminator (hz : ∀ s, parse s = parse (head z s))
    (hnil : parse [] = none) (h : bs.flatten = z :: w) : parseAll parse bs = none := by
  induction bs with
  | nil => exact absurd h (by simp)
  | cons b bs ih =>
    cases b with
    | nil => exact parseAll_cons_of_rest (ih h)
    | cons a c =>
      obtain rfl : a = z := (List.cons.inj h).1
      refine parseAll_cons_of_none (List.cons_ne_nil a c) ?_
      rw [hz, head_cons_self, hnil]

/-- A text without its start: its last piece fails. -/
theorem parseAll_eq_none_of_headless (hz : ∀ s, parse s = parse (head z s)) (hs : s ≠ [])
    (hclean : z ∉ s) (hpart : ∀ {p c}, s = p ++ c → c ≠ [] → parse c = none)
    (h : bs.flatten = s ++ z :: w) : parseAll parse bs = none := by
  induction bs generalizing s with
  | nil => exact absurd h (by simp)
  | cons b bs ih =>
    by_cases hb : b = []
    · rw [hb] at h
      exact parseAll_cons_of_rest (ih hs hclean hpart h)
    -- a block that has all that is left of the text
    have hall : ∀ c, b = s ++ c → head z c = [] → parseAll parse (b :: bs) = none := by
      intro c hbc hc
      refine parseAll_cons_of_none hb ?_
      rw [hz, hbc, head_append_of_notMem hclean, hc, List.append_nil]
      exact hpart (List.nil_append s).symm hs
    rw [List.flatten_cons] at h
    rcases List.append_eq_append_iff.mp h with ⟨c, hsc, hrest⟩ | ⟨c, hbc, hrest⟩
    · by_cases hc : c = []
      · exact hall [] (by rw [hsc, hc, List.append_nil, List.append_nil]) rfl
      · refine parseAll_cons_of_rest (ih hc (fun hzc => hclean ?_) ?_ hrest)
        · rw [hsc]
          exact List.mem_append_right b hzc
        · intro p c' hcp hc'
          exact hpart (p := b ++ p) (by rw [hsc, hcp, List.append_assoc]) hc'
    · cases c with
      | nil => exact hall [] hbc rfl
      | cons a c =>
        obtain rfl : z = a := (List.cons.inj hrest).1
        exact hall (z :: c) hbc (head_cons_self c)

/-- **The first block.** It is a text with both terminators and perhaps more,
or something fails. -/
theorem parseAll_cons_cases (hz : ∀ s, parse s = parse (head z s)) (hnil : parse [] = none)
    (ht : Parses z parse t) (hb : b ≠ [])
    (h : b ++ bs.flatten = t.1 ++ z :: z :: w) :
    (parseAll parse (b :: bs) = none ∧ b ≠ t.1 ++ [z, z])
      ∨ ∃ c, b = t.1 ++ z :: z :: c ∧ w = c ++ bs.flatten ∧ parse b = some t.2 := by
  have hclean := ht.message.clean
  -- a block that ends with the text, or between its terminators
  have hearly : ∀ w', bs.flatten = z :: w' → parseAll parse (b :: bs) = none :=
    fun w' hw' => parseAll_cons_of_rest (parseAll_eq_none_of_terminator hz hnil hw')
  have hlen : ∀ c : List α, c.length < 2 → t.1 ++ c ≠ t.1 ++ [z, z] := by
    intro c hc heq
    rw [List.append_cancel_left heq] at hc
    exact absurd hc (by simp)
  rcases List.append_eq_append_iff.mp h with ⟨c, htc, hrest⟩ | ⟨c, hbc, hrest⟩
  · refine Or.inl ?_
    by_cases hc : c = []
    · subst hc
      rw [List.append_nil] at htc
      refine ⟨hearly _ hrest, ?_⟩
      have hne := hlen [] Nat.two_pos
      rw [htc]
      rwa [List.append_nil, htc] at hne
    · have hbclean : z ∉ b := fun hzb => hclean (htc ▸ List.mem_append_left c hzb)
      refine ⟨parseAll_cons_of_none hb (ht.incomplete htc hc), fun hbz => hbclean ?_⟩
      rw [hbz]
      exact List.mem_append_right _ List.mem_cons_self
  · cases c with
    | nil =>
      refine Or.inl ⟨hearly _ hrest.symm, ?_⟩
      rw [hbc]
      exact hlen [] Nat.two_pos
    | cons a c =>
      obtain ⟨rfl, hrest'⟩ : z = a ∧ z :: w = c ++ bs.flatten := List.cons.inj hrest
      cases c with
      | nil =>
        refine Or.inl ⟨hearly _ hrest'.symm, ?_⟩
        rw [hbc]
        exact hlen [z] Nat.one_lt_two
      | cons a c =>
        obtain ⟨rfl, hw⟩ : z = a ∧ w = c ++ bs.flatten := List.cons.inj hrest'
        refine Or.inr ⟨c, hbc, hw, ?_⟩
        rw [hz, hbc, (ht.message.head_append _).2, ht.value]

omit [DecidableEq α] in
theorem frame₂_cons (t : List α × β) (ts : List (List α × β)) :
    frame₂ z (t :: ts) = t.1 ++ z :: z :: frame₂ z ts := by
  unfold frame₂
  rw [List.flatMap_cons, List.append_assoc]
  rfl

/-- **What was lost is missed.** If something of the stream comes before the
blocks, fewer values come out than there are texts, as long as no more values
come out than there are texts. -/
theorem length_lt_of_lost (hz : ∀ s, parse s = parse (head z s)) (hnil : parse [] = none)
    (hle : ∀ {ts : List (List α × β)}, bs.flatten = frame₂ z ts →
      (∀ t ∈ ts, Parses z parse t) → vs.length ≤ ts.length)
    (hts : ∀ t ∈ ts, Parses z parse t) (hlost : lost ≠ [])
    (h : frame₂ z ts = lost ++ bs.flatten) (hvs : parseAll parse bs = some vs) :
    vs.length < ts.length := by
  have hnone : parseAll parse bs ≠ none := by
    rw [hvs]
    exact Option.some_ne_none vs
  induction ts generalizing lost with
  | nil =>
    have hnil' : lost = [] := (List.append_eq_nil_iff.mp h.symm).1
    exact absurd hnil' hlost
  | cons t ts ih =>
    have ht := hts t List.mem_cons_self
    have hts' : ∀ t ∈ ts, Parses z parse t := fun t' h' => hts t' (List.mem_cons_of_mem _ h')
    rw [frame₂_cons] at h
    have hterm : ∀ w, bs.flatten ≠ z :: w :=
      fun w hw => hnone (parseAll_eq_none_of_terminator hz hnil hw)
    rcases List.append_eq_append_iff.mp h with ⟨c, hlc, hrest⟩ | ⟨c, htc, hrest⟩
    · -- the text was lost whole: what follows may not start with a terminator
      cases c with
      | nil => exact absurd hrest.symm (hterm _)
      | cons a c =>
        obtain ⟨rfl, hrest'⟩ : z = a ∧ z :: frame₂ z ts = c ++ bs.flatten :=
          List.cons.inj hrest
        cases c with
        | nil => exact absurd hrest'.symm (hterm _)
        | cons a c =>
          obtain ⟨-, hrest''⟩ : z = a ∧ frame₂ z ts = c ++ bs.flatten := List.cons.inj hrest'
          by_cases hc : c = []
          · subst hc
            exact Nat.lt_succ_of_le (hle hrest''.symm hts')
          · exact Nat.lt_succ_of_lt (ih hts' hc hrest'')
    · by_cases hc : c = []
      · subst hc
        exact absurd hrest (hterm _)
      · refine absurd (parseAll_eq_none_of_headless hz hc ?_ ?_ hrest) hnone
        · exact fun hzc => ht.message.clean (htc ▸ List.mem_append_right lost hzc)
        · intro p c' hcp hc'
          refine ht.headless (p := lost ++ p) (by rw [htc, hcp, List.append_assoc]) ?_ hc'
          exact fun hnil' => hlost (List.append_eq_nil_iff.mp hnil').1

/-- No more values come out than there are texts. -/
theorem length_le_of_parseAll (hz : ∀ s, parse s = parse (head z s)) (hnil : parse [] = none)
    (h : bs.flatten = frame₂ z ts) (hts : ∀ t ∈ ts, Parses z parse t)
    (hvs : parseAll parse bs = some vs) : vs.length ≤ ts.length := by
  induction bs generalizing ts vs with
  | nil =>
    obtain rfl : [] = vs := Option.some.inj hvs
    exact Nat.zero_le _
  | cons b bs ih =>
    by_cases hb : b = []
    · subst hb
      exact ih h hts hvs
    cases ts with
    | nil => exact absurd (List.append_eq_nil_iff.mp h).1 hb
    | cons t ts =>
      have ht := hts t List.mem_cons_self
      have hts' : ∀ t ∈ ts, Parses z parse t := fun t' h' => hts t' (List.mem_cons_of_mem _ h')
      rw [List.flatten_cons, frame₂_cons] at h
      rcases parseAll_cons_cases hz hnil ht hb h with ⟨hnone, -⟩ | ⟨c, -, hrest, hval⟩
      · exact absurd (hvs.symm.trans hnone) (Option.some_ne_none vs)
      · rw [parseAll_cons_of_some hb hval] at hvs
        obtain ⟨vs', hvs', rfl⟩ := Option.map_eq_some_iff.mp hvs
        refine Nat.succ_le_succ ?_
        by_cases hc : c = []
        · subst hc
          exact ih hrest.symm hts' hvs'
        · exact (length_lt_of_lost hz hnil (fun h' hts'' => ih h' hts'' hvs') hts' hc hrest
            hvs').le

/-- **When parsing whole blocks is enough**: every block is parsed and the
values are those of the texts, each once and in order, exactly when the
blocks that are not empty are the texts, each with both terminators. -/
theorem parseAll_eq_some_iff (hz : ∀ s, parse s = parse (head z s)) (hnil : parse [] = none)
    (h : bs.flatten = frame₂ z ts) (hts : ∀ t ∈ ts, Parses z parse t) :
    parseAll parse bs = some (ts.map Prod.snd)
      ↔ bs.filter (fun b => b ≠ []) = ts.map (fun t => t.1 ++ [z, z]) := by
  induction bs generalizing ts with
  | nil =>
    cases ts with
    | nil => exact ⟨fun _ => rfl, fun _ => rfl⟩
    | cons t ts => exact absurd h (by simp [frame₂])
  | cons b bs ih =>
    by_cases hb : b = []
    · subst hb
      exact ih h hts
    rw [List.filter_cons_of_pos (by simpa using hb)]
    cases ts with
    | nil => exact absurd (List.append_eq_nil_iff.mp h).1 hb
    | cons t ts =>
      have ht := hts t List.mem_cons_self
      have hts' : ∀ t ∈ ts, Parses z parse t := fun t' h' => hts t' (List.mem_cons_of_mem _ h')
      rw [List.flatten_cons, frame₂_cons] at h
      rcases parseAll_cons_cases hz hnil ht hb h with ⟨hnone, hne⟩ | ⟨c, hbc, hrest, hval⟩
      · refine iff_of_false (fun heq => ?_) (fun heq => hne (List.cons.inj heq).1)
        exact absurd (heq.symm.trans hnone) (Option.some_ne_none _)
      · rw [parseAll_cons_of_some hb hval]
        by_cases hc : c = []
        · subst hc
          rw [List.map_cons, List.map_cons, hbc, List.cons_inj_right, ← ih hrest.symm hts']
          constructor
          · intro heq
            obtain ⟨vs', hvs', hcons⟩ := Option.map_eq_some_iff.mp heq
            rw [hvs', (List.cons.inj hcons).2]
          · intro heq
            rw [heq]
            rfl
        · refine iff_of_false (fun heq => ?_) (fun heq => hc ?_)
          · obtain ⟨vs', hvs', hcons⟩ := Option.map_eq_some_iff.mp heq
            have hlt := length_lt_of_lost hz hnil
              (fun h' hts'' => length_le_of_parseAll hz hnil h' hts'' hvs') hts' hc hrest hvs'
            rw [(List.cons.inj hcons).2, List.length_map] at hlt
            exact Nat.lt_irrefl _ hlt
          · have hframe : t.1 ++ z :: z :: c = t.1 ++ [z, z] := hbc.symm.trans (List.cons.inj heq).1
            exact (List.cons.inj (List.cons.inj (List.append_cancel_left hframe)).2).2

end Parsing

end Framing
