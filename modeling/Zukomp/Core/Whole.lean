import Zukomp.Core.Feeding
import Zukomp.Core.Sizes

/-! # The whole-buffer drive loop, zu_whole.c

The source is handed over a slice at a time, each call gets a fresh window of
`out_chunk` bytes, and `ZU_FINISH` goes with the last slice. A decoder that keeps the
streaming contract delivers its text whatever the two chunk sizes. The ratio limit is the
driver's check of the running totals after every call, so it sees the chunks.
-/

namespace Zukomp

open Library

/-! ## The growing sink -/

/-- `zu_int_outbuf`, the bytes used in place of the block that holds them. -/
structure OutBuf where
  size : ℕ
  used : List UInt8
  consumed : ℕ

def OutBuf.empty : OutBuf := ⟨0, [], 0⟩

/-- `zu_int_reserve`, where the block asked for is there to be had. -/
def reserve (o : OutBuf) (extra : ℕ) : Except Status OutBuf :=
  match sizeAdd o.used.length extra with
  | .error st => .error st
  | .ok needed =>
    if needed ≤ o.size then .ok o
    else match grow o.size (needed - o.size) with
      | .error st => .error st
      | .ok next => .ok { o with size := next }

theorem reserve_ok {o : OutBuf} {extra : ℕ} (h : o.used.length + extra < wordSize) :
    ∃ size, reserve o extra = .ok { o with size := size } := by
  unfold reserve
  rw [sizeAdd_ok h]
  dsimp only
  split_ifs with hfits
  · exact ⟨o.size, rfl⟩
  · obtain ⟨next, hnext, -⟩ := grow_ok
      (show o.size + (o.used.length + extra - o.size) < wordSize by omega)
    rw [hnext]
    exact ⟨next, rfl⟩

theorem reserve_used {o o' : OutBuf} {extra : ℕ} (h : reserve o extra = .ok o') :
    o'.used = o.used := by
  unfold reserve at h
  split at h
  · cases h
  · split at h
    · cases h
      rfl
    · split at h
      · cases h
      · cases h
        rfl

/-! ## The loop -/

structure RunOpts where
  src : List UInt8
  encode : Bool
  codec : CodecId
  level : ℤ
  maxOutput : UInt64
  maxRatio : UInt32
  decFlags : UInt32
  expectedSize : UInt64
  inChunk : ℕ
  outChunk : ℕ
  flushEvery : UInt64

/-- The loop around either direction's handle: the rest of the slice handed over, the
source still to be handed over, the calls made and the sink. -/
structure Whole (η : Type) where
  handle : η
  slice : List UInt8
  later : List UInt8
  calls : UInt64
  out : OutBuf

namespace Whole

variable {η : Type}

def start (h : η) (r : RunOpts) (out : OutBuf) : Whole η := ⟨h, [], r.src, 0, out⟩

/-- Hand over the next slice once the previous one is spent. -/
def refill (r : RunOpts) (x : Whole η) : Whole η :=
  if x.slice = [] then
    { x with slice := x.later.take r.inChunk, later := x.later.drop r.inChunk }
  else x

def mode (r : RunOpts) (x : Whole η) : Flush :=
  if x.later = [] then .finish
  else if 0 < r.flushEvery ∧ (x.calls + 1) % r.flushEvery = 0 then .flush
  else .run

/-- What the codec took, as opposed to what was offered. -/
def finish (r : RunOpts) (x : Whole η) (out : OutBuf) : OutBuf :=
  { out with consumed := r.src.length - x.later.length - x.slice.length }

end Whole

/-- What the loop makes of a call's result. -/
def Whole.judge {η : Type} (r : RunOpts) (x : Whole η) (out : OutBuf) (c : Status × η × Buffer) :
    Whole η ⊕ Status × OutBuf :=
  let out := { out with used := out.used ++ c.2.2.stored }
  let x' : Whole η := { x with
    handle := c.2.1, slice := c.2.2.unread, calls := x.calls + 1, out := out }
  if c.1 = .streamEnd then .inr (.streamEnd, x'.finish r out)
  else if c.1 ≠ .ok ∧ c.1 ≠ .needInput ∧ c.1 ≠ .needOutput then .inr (c.1, x'.finish r out)
  -- nothing moved and there is nothing left to give
  else if c.2.2.dstPos = 0 ∧ x.later = [] ∧ c.1 = .needInput then
    .inr (.errInternal, x'.finish r out)
  else .inl x'

def wholeTurn {η : Type} (process : η → Buffer → Flush → Status × η × Buffer) (r : RunOpts)
    (x : Whole η) : Whole η ⊕ Status × OutBuf :=
  let x := x.refill r
  match reserve x.out r.outChunk with
  | .error st => .inr (st, x.finish r x.out)
  | .ok out => x.judge r out (process x.handle (.ofParts x.slice r.outChunk) (x.mode r))

/-- The options `zu_int_run_whole` makes its handle from. -/
def RunOpts.encoderOpts (r : RunOpts) : EncoderOpts :=
  { structSize := encoderOptsSize, codec := r.codec, level := r.level, flags := 0 }

def RunOpts.decoderOpts (r : RunOpts) : DecoderOpts :=
  { structSize := decoderOptsSize, codec := r.codec, maxOutput := r.maxOutput
    maxRatio := r.maxRatio, flags := r.decFlags, expectedSize := r.expectedSize }

/-- `zu_int_run_whole`: what it returns, if it does. -/
def RunsWhole (lookup : CodecId → Option CodecVtable) (r : RunOpts) (out : OutBuf)
    (result : Status × OutBuf) : Prop :=
  if r.inChunk = 0 ∨ r.outChunk = 0 then result = (.errInvalidArgument, out)
  else if r.encode then
    match encoderNew lookup r.encoderOpts with
    | .error st => result = (st, out)
    | .ok ⟨_, e⟩ => Returns (wholeTurn encoderProcess r) (.start e r out) result
  else
    match decoderNew lookup r.decoderOpts with
    | .error st => result = (st, out)
    | .ok ⟨_, d⟩ => Returns (wholeTurn decoderProcess r) (.start d r out) result

/-- The two chunk sizes of a run. -/
structure Chunking where
  inChunk : ℕ
  outChunk : ℕ
  in_pos : 0 < inChunk
  out_pos : 0 < outChunk

def RunOpts.chunked (r : RunOpts) (c : Chunking) : RunOpts :=
  { r with inChunk := c.inChunk, outChunk := c.outChunk }

theorem runsWhole_decode {lookup : CodecId → Option CodecVtable} {r : RunOpts} {v : CodecVtable}
    {d : Decoder v} (henc : r.encode = false) (hnew : decoderNew lookup r.decoderOpts = .ok ⟨v, d⟩)
    (c : Chunking) (out : OutBuf) (e : Status × OutBuf) :
    RunsWhole lookup (r.chunked c) out e ↔
      Returns (wholeTurn decoderProcess (r.chunked c)) (.start d r out) e := by
  have hchunks : ¬ ((r.chunked c).inChunk = 0 ∨ (r.chunked c).outChunk = 0) := by
    have hin := c.in_pos
    have hout := c.out_pos
    simp only [RunOpts.chunked]
    omega
  have henc' : (r.chunked c).encode = false := henc
  have hnew' : decoderNew lookup (r.chunked c).decoderOpts = .ok ⟨v, d⟩ := hnew
  rw [RunsWhole, if_neg hchunks, if_neg (by simp [henc']), hnew']
  rfl

/-! ## Decoding a whole stream -/

variable {v : CodecVtable}

namespace StreamDecoder

variable {c : Coding UInt8} (k : StreamDecoder v c)

/-- A run that has read `p` bytes of the stream. -/
structure WholeAt (r : RunOpts) (x : Whole (Decoder v)) (p : ℕ) : Prop where
  standing : ∃ last, k.Standing x.handle last p x.out.used.length ∧ (last = true → x.later = [])
  unlimited : x.handle.opts.ceiling = none
  rest : x.slice ++ x.later = c.code.drop p
  writes : c.Writes 0 x.out.used

/-- The codec gives up on the call of the next turn. -/
def FailsWhole (r : RunOpts) (x : Whole (Decoder v)) : Prop :=
  k.Fails x.handle.state (shownWindow x.handle (.ofParts (x.refill r).slice r.outChunk))
    ((x.refill r).mode r)

def wholeMeasure (c : Coding UInt8) (x : Whole (Decoder v)) : ℕ :=
  x.slice.length + x.later.length + (c.text.length - x.out.used.length)

variable {k} {r : RunOpts} {x : Whole (Decoder v)} {p : ℕ}

/-- A new slice is the next piece of the stream, and is empty only at its end. -/
theorem WholeAt.refill (h : k.WholeAt r x p) (hin : 0 < r.inChunk) :
    k.WholeAt r (x.refill r) p ∧ ((x.refill r).slice = [] → (x.refill r).later = []) ∧
      (x.refill r).slice.length + (x.refill r).later.length = x.slice.length + x.later.length := by
  unfold Whole.refill
  split_ifs with hslice
  · obtain ⟨last, hstand, hlast⟩ := h.standing
    have hrest := h.rest
    rw [hslice, List.nil_append] at hrest
    refine ⟨⟨⟨last, hstand, fun hl => by simp [hlast hl]⟩, h.unlimited, ?_, h.writes⟩, ?_, ?_⟩
    · simpa using hrest
    · intro hnil
      rcases List.take_eq_nil_iff.mp hnil with h0 | h0
      · omega
      · simp [h0]
    · simp only [hslice, List.length_take, List.length_drop, List.length_nil]
      omega
  · exact ⟨h, fun hnil => absurd hnil hslice, rfl⟩

/-- A call that does not fail moves the run on, or ends it with the text. -/
theorem wholeTurn_at (h : k.WholeAt r x p) (hin : 0 < r.inChunk) (hout : 0 < r.outChunk)
    (hflush : r.flushEvery = 0) (hfits : c.text.length + r.outChunk < wordSize)
    (hf : ¬ k.FailsWhole r x) :
    Turn (fun x' => (∃ p', k.WholeAt r x' p') ∧ wholeMeasure c x' < wholeMeasure c x)
      (fun e => e.1 = .streamEnd ∧ e.2.used = c.text) (wholeTurn decoderProcess r x) := by
  obtain ⟨hrefill, hnil, hlen⟩ := h.refill hin
  have hmeasure : wholeMeasure c (x.refill r) = wholeMeasure c x := by
    have : (x.refill r).out = x.out := by
      unfold Whole.refill
      split_ifs <;> rfl
    simp only [wholeMeasure, this, hlen]
  rw [← hmeasure]
  unfold FailsWhole at hf
  have hhandle : (x.refill r).handle = x.handle := by
    unfold Whole.refill
    split_ifs <;> rfl
  rw [← hhandle] at hf
  unfold wholeTurn Whole.judge
  dsimp only
  generalize x.refill r = y at *
  obtain ⟨last, hstand, hlast⟩ := hrefill.standing
  have hbound := hrefill.writes.length_le
  simp only [Nat.sub_zero] at hbound
  obtain ⟨size, hreserve⟩ := reserve_ok (show y.out.used.length + r.outChunk < wordSize by omega)
  rw [hreserve]
  dsimp only
  have hmode : y.mode r ≠ .flush := by
    simp only [Whole.mode, hflush]
    split_ifs <;> simp_all
  have hfinish : y.mode r = .finish ↔ y.later = [] := by
    simp only [Whole.mode, hflush]
    split_ifs <;> simp_all
  have hshows : c.Shows p (Buffer.ofParts y.slice r.outChunk).unread (y.mode r = .finish) := by
    refine ⟨⟨_, by simpa using hrefill.rest⟩, fun hm => ?_⟩
    have := hrefill.rest
    rw [hfinish.mp hm, List.append_nil] at this
    simpa using this
  obtain ⟨u, o, hm, hopts, hceil, hj⟩ :=
    process_judged (.ofParts y.slice r.outChunk) (y.mode r) hstand (checkBuffer_ofParts ..)
      (fun hl => hfinish.mpr (hlast hl)) hmode hshows hf
  have hread : u ≤ y.slice.length := by simpa using hm.read_le
  have hunread : (decoderProcess y.handle (.ofParts y.slice r.outChunk) (y.mode r)).2.2.unread =
      y.slice.drop u := by simpa using hm.unread
  have hstored : (decoderProcess y.handle (.ofParts y.slice r.outChunk) (y.mode r)).2.2.stored =
      o := hm.stored
  have hwrites : c.Writes 0 (y.out.used ++ o) := hrefill.writes.append (by simpa using hm.writes)
  have hrest : y.slice.drop u ++ y.later = c.code.drop (p + u) := by
    rw [← List.drop_drop, ← hrefill.rest, List.drop_append_of_le_length hread]
  have hle := hwrites.length_le
  simp only [List.length_append, Nat.sub_zero] at hle
  have hnone : (decoderProcess y.handle (.ofParts y.slice r.outChunk)
      (y.mode r)).2.1.opts.ceiling = none := by rw [hopts]; exact hrefill.unlimited
  have hexpected := DecoderOpts.hasExpected_of_none hrefill.unlimited
  rw [hunread, hstored]
  generalize (decoderProcess y.handle (.ofParts y.slice r.outChunk) (y.mode r)).1 = st at hj ⊢
  generalize (decoderProcess y.handle (.ofParts y.slice r.outChunk) (y.mode r)).2.1 = d' at *
  cases hj with
  | ended read written size =>
    exact ⟨rfl, hwrites.eq_text (by rw [List.length_append]; exact written)⟩
  | missized read written expected size => simp [hexpected] at expected
  | capped ceiling spent owing =>
    rw [hrefill.unlimited] at ceiling
    cases ceiling
  | hungry standing more empty stall =>
    have hlater : y.later ≠ [] := fun h => more (hfinish.mpr h)
    have hslice : y.slice ≠ [] := fun h => hlater (hnil h)
    simp only [Buffer.unread_ofParts] at empty
    rw [if_neg (by simp), if_neg (by simp), if_neg (fun h => hlater h.2.1)]
    have hpos := List.length_pos_iff.mpr hslice
    have hlive := standing (.inr (moved_of_read (by rw [List.drop_eq_nil_iff] at empty; omega)))
    refine ⟨⟨p + u, ⟨_, by simpa using hlive, by simp [more]⟩, hnone, hrest, hwrites⟩, ?_⟩
    simp only [wholeMeasure, empty, List.length_nil, List.length_append]
    omega
  | full standing noRoom owing =>
    simp only [Buffer.availOut_ofParts] at noRoom
    rw [if_neg (by simp), if_neg (by simp), if_neg (by simp)]
    have hlive := standing (.inr (moved_of_written (by omega)))
    refine ⟨⟨p + u, ⟨_, by simpa using hlive, by simp [hfinish]⟩, hnone, hrest, hwrites⟩, ?_⟩
    simp only [wholeMeasure, List.length_drop, List.length_append]
    omega

/-- A whole-buffer run none of whose calls fails ends with the text, whatever its chunks. -/
theorem whole_end {d : Decoder v} (h : k.Standing d false 0 0) (hnone : d.opts.ceiling = none)
    (hsrc : r.src = c.code) (hin : 0 < r.inChunk) (hout : 0 < r.outChunk)
    (hflush : r.flushEvery = 0) (hfits : c.text.length + r.outChunk < wordSize)
    (hf : ∀ x p, k.WholeAt r x p → ¬ k.FailsWhole r x) :
    ∃ out, Returns (wholeTurn decoderProcess r) (.start d r .empty) (.streamEnd, out) ∧
      out.used = c.text := by
  obtain ⟨⟨st, out⟩, hr, rfl, htext⟩ := returns_of_measure (fun x => ∃ p, k.WholeAt r x p)
    (wholeMeasure c) (fun x ⟨p, hx⟩ => wholeTurn_at hx hin hout hflush hfits (hf x p hx))
    (s := .start d r .empty) ⟨0, ⟨false, h, by simp⟩, hnone, by simpa [Whole.start] using hsrc, .nil⟩
  exact ⟨out, hr, htext⟩

end StreamDecoder

/-! ## The ratio limit -/

/-- The handle under a ratio limit. -/
def Decoder.limited (d : Decoder v) (maxRatio : UInt32) : Decoder v :=
  { d with opts := { d.opts with maxRatio := maxRatio } }

/-- The counters of a handle exceed the ratio. -/
def Decoder.OverRatio (d : Decoder v) (maxRatio : UInt32) : Prop :=
  maxRatio ≠ 0 ∧ 0 < d.totalOut ∧ ratioAllowed maxRatio d.totalIn < d.totalOut

instance (d : Decoder v) (maxRatio : UInt32) : Decidable (d.OverRatio maxRatio) :=
  inferInstanceAs (Decidable (_ ∧ _ ∧ _))

/-- A last check behind six others sees only what passes them. -/
theorem Verdict.chain {A B C D E F G : Prop} [Decidable A] [Decidable B] [Decidable C]
    [Decidable D] [Decidable E] [Decidable F] [Decidable G] {a b c d e f g : Verdict}
    (ha : a ≠ .passed) (hb : b ≠ .passed) (hc : c ≠ .passed) (hd : d ≠ .passed)
    (he : e ≠ .passed) (hf : f ≠ .passed) :
    (if A then a else if B then b else if C then c else if D then d else if E then e
      else if F then f else if G then g else .passed) =
    if (if A then a else if B then b else if C then c else if D then d else if E then e
        else if F then f else .passed) = Verdict.passed ∧ G then g
    else if A then a else if B then b else if C then c else if D then d else if E then e
      else if F then f else .passed := by
  by_cases hA : A
  · simp only [if_pos hA, ha, false_and, if_false]
  by_cases hB : B
  · simp only [if_neg hA, if_pos hB, hb, false_and, if_false]
  by_cases hC : C
  · simp only [if_neg hA, if_neg hB, if_pos hC, hc, false_and, if_false]
  by_cases hD : D
  · simp only [if_neg hA, if_neg hB, if_neg hC, if_pos hD, hd, false_and, if_false]
  by_cases hE : E
  · simp only [if_neg hA, if_neg hB, if_neg hC, if_neg hD, if_pos hE, he, false_and, if_false]
  by_cases hF : F
  · simp only [if_neg hA, if_neg hB, if_neg hC, if_neg hD, if_neg hE, if_pos hF, hf, false_and,
      if_false]
  · simp only [if_neg hA, if_neg hB, if_neg hC, if_neg hD, if_neg hE, if_neg hF, true_and]

/-- The ratio check comes last: it only refuses what passes every other check. -/
theorem Decoder.verdict_limited {d : Decoder v} (hd : d.opts.maxRatio = 0) (maxRatio : UInt32)
    (st : Status) (capped : Bool) (allowed produced : ℕ) (unread : Bool) :
    (d.limited maxRatio).verdict st capped allowed produced unread =
        d.verdict st capped allowed produced unread ∧
        (d.verdict st capped allowed produced unread = .passed → st.isError = true ∨
          ¬ d.OverRatio maxRatio) ∨
      (d.limited maxRatio).verdict st capped allowed produced unread = .refused .errRatioLimit ∧
        d.OverRatio maxRatio := by
  have hcheck : ¬ (st ≠ .errOutputLimit ∧ d.opts.maxRatio ≠ 0 ∧ 0 < d.totalOut ∧
      ratioAllowed d.opts.maxRatio d.totalIn < d.totalOut) := fun h => h.2.1 hd
  -- every check but the last is the same for the two handles
  have heq : (d.limited maxRatio).verdict st capped allowed produced unread =
      if d.verdict st capped allowed produced unread = .passed ∧ st ≠ .errOutputLimit ∧
        d.OverRatio maxRatio then .refused .errRatioLimit
      else d.verdict st capped allowed produced unread := by
    rw [verdict, verdict, if_neg hcheck]
    exact Verdict.chain (by simp) (by simp) (by simp) (by simp) (by simp) (by simp)
  rw [heq]
  split_ifs with h
  · exact .inr ⟨rfl, h.2.2⟩
  · refine .inl ⟨rfl, fun hp => ?_⟩
    by_contra hne
    rw [not_or, not_not] at hne
    refine h ⟨hp, ?_, hne.2⟩
    rintro rfl
    exact hne.1 rfl

/-- Under a ratio limit a call does what it does without, except that it may be refused for
the ratio: it is when its counters exceed the ratio and it would not be an error anyway. -/
theorem decoderCall_limited {d : Decoder v} (hd : d.opts.maxRatio = 0) (hfin : d.finished = false)
    (maxRatio : UInt32) (buf : Buffer) (mode : Flush) :
    (decoderCall (d.limited maxRatio) buf mode).dec = (decoderCall d buf mode).dec.limited maxRatio ∧
    (decoderCall (d.limited maxRatio) buf mode).buf = (decoderCall d buf mode).buf ∧
    ((decoderCall (d.limited maxRatio) buf mode).status = (decoderCall d buf mode).status ∧
        ((decoderCall d buf mode).status.isError = true ∨
          ¬ (decoderCall d buf mode).dec.OverRatio maxRatio) ∨
      (decoderCall (d.limited maxRatio) buf mode).status = .errRatioLimit ∧
        (decoderCall d buf mode).dec.OverRatio maxRatio) := by
  by_cases hbuf : checkBuffer buf = .ok
  · by_cases hmode : mode = .flush → v.can canFlush
    · rw [decoderCall_codec hbuf hfin hmode,
        decoderCall_codec (d := d.limited maxRatio) hbuf hfin hmode]
      have hshown : (d.limited maxRatio).shown buf = d.shown buf := rfl
      rw [hshown]
      rcases hcodec : v.decoderProcess d.state (d.shown buf) mode with ⟨st, s, after⟩
      rw [show (d.limited maxRatio).state = d.state from rfl, hcodec]
      obtain ⟨capped, allowed, produced, unread, hst, hst'⟩ :
          ∃ capped allowed produced unread,
            (d.settle buf (st, s, after)).status =
              ((d.settle buf (st, s, after)).dec.verdict st capped allowed produced unread).status
                st ∧
            ((d.limited maxRatio).settle buf (st, s, after)).status =
              (((d.settle buf (st, s, after)).dec.limited maxRatio).verdict st capped allowed
                produced unread).status st := ⟨_, _, _, _, rfl, rfl⟩
      refine ⟨rfl, rfl, ?_⟩
      rw [hst, hst']
      have hopts : (d.settle buf (st, s, after)).dec.opts.maxRatio = 0 := hd
      rcases Decoder.verdict_limited hopts maxRatio st capped allowed produced unread with
        ⟨hsame, hpass⟩ | ⟨hrefuse, hover⟩
      · rw [hsame]
        refine .inl ⟨rfl, ?_⟩
        by_cases herr : (((d.settle buf (st, s, after)).dec.verdict st capped allowed produced
            unread).status st).isError = true
        · exact .inl herr
        · have hpassed := Decoder.verdict_of_not_error (Bool.not_eq_true _ ▸ herr)
          rw [hpassed] at herr ⊢
          exact hpass hpassed
      · rw [hrefuse]
        exact .inr ⟨rfl, hover⟩
    · simp only [not_forall] at hmode
      obtain ⟨rfl, hcan⟩ := hmode
      have huntouched (d : Decoder v) (hfin : d.finished = false) :
          decoderCall d buf .flush = ⟨.errUnsupported, d, buf, false⟩ := by
        simp [decoderCall, hbuf, hfin, hcan]
      rw [huntouched d hfin, huntouched (d.limited maxRatio) hfin]
      exact ⟨rfl, rfl, .inl ⟨rfl, .inl rfl⟩⟩
  · have huntouched (d : Decoder v) :
        decoderCall d buf mode = ⟨checkBuffer buf, d, buf, false⟩ := by
      rw [decoderCall, if_pos hbuf]
    rw [huntouched d, huntouched (d.limited maxRatio)]
    exact ⟨rfl, rfl, .inl ⟨rfl, .inl (checkBuffer_isError hbuf)⟩⟩

theorem decoderCall_unfinished {d : Decoder v} (hfin : d.finished = false) {buf : Buffer}
    {mode : Flush} (herr : (decoderCall d buf mode).status.isError = false)
    (hend : (decoderCall d buf mode).status ≠ .streamEnd) :
    (decoderCall d buf mode).dec.finished = false := by
  rcases decoderCall_cases d buf mode with ⟨hd, _⟩ | ⟨_, _, _, hcall⟩
  · rw [hd]
    exact hfin
  · obtain ⟨capped, allowed, produced, unread, hf, hst, _⟩ := d.settle_judged buf
      (v.decoderProcess d.state (d.shown buf) mode)
    rw [← hcall] at hf hst
    rw [hst] at herr hend
    rw [Decoder.verdict_of_not_error herr] at hend
    rw [hf, beq_eq_false_iff_ne]
    exact hend

namespace Whole

/-- The run under a ratio limit. -/
def limited (x : Whole (Decoder v)) (maxRatio : UInt32) : Whole (Decoder v) :=
  { x with handle := x.handle.limited maxRatio }

/-- The call of the next turn leaves the counters over the ratio. -/
def OverAt (r : RunOpts) (maxRatio : UInt32) (x : Whole (Decoder v)) : Prop :=
  (∃ out, reserve x.out r.outChunk = .ok out) ∧
    (decoderProcess x.handle (.ofParts (x.refill r).slice r.outChunk)
      ((x.refill r).mode r)).2.1.OverRatio maxRatio

/-- A run in progress without a ratio limit. -/
structure Open (x : Whole (Decoder v)) : Prop where
  noRatio : x.handle.opts.maxRatio = 0
  unfinished : x.handle.finished = false

@[simp] theorem refill_handle {η : Type} (r : RunOpts) (x : Whole η) :
    (x.refill r).handle = x.handle := by
  unfold refill
  split_ifs <;> rfl

@[simp] theorem refill_out {η : Type} (r : RunOpts) (x : Whole η) :
    (x.refill r).out = x.out := by
  unfold refill
  split_ifs <;> rfl

theorem refill_limited (r : RunOpts) (x : Whole (Decoder v)) (maxRatio : UInt32) :
    (x.limited maxRatio).refill r = (x.refill r).limited maxRatio := by
  unfold refill
  rw [limited]
  split_ifs <;> rfl

end Whole

theorem Whole.judge_limited (r : RunOpts) (x : Whole (Decoder v)) (out : OutBuf)
    (c : Status × Decoder v × Buffer) (maxRatio : UInt32) :
    (x.limited maxRatio).judge r out (c.1, c.2.1.limited maxRatio, c.2.2) =
      (x.judge r out c).map (·.limited maxRatio) id := by
  have hlater : (x.limited maxRatio).later = x.later := rfl
  unfold Whole.judge
  rw [hlater]
  dsimp only
  split_ifs <;> rfl

theorem Whole.judge_error {η : Type} (r : RunOpts) (x : Whole η) (out : OutBuf)
    {c : Status × η × Buffer} (h : c.1.isError = true) :
    ∃ out', x.judge r out c = .inr (c.1, out') := by
  obtain ⟨st, η, buf⟩ := c
  unfold Whole.judge
  dsimp only
  cases st <;> first | exact ⟨_, rfl⟩ | cases h

/-- A run goes on with the handle of a call that asks for more. -/
theorem Whole.judge_next {η : Type} {r : RunOpts} {x x' : Whole η} {out : OutBuf}
    {c : Status × η × Buffer} (h : x.judge r out c = .inl x') :
    x'.handle = c.2.1 ∧ c.1.isError = false ∧ c.1 ≠ .streamEnd := by
  obtain ⟨st, handle, buf⟩ := c
  unfold judge at h
  dsimp only at h
  by_cases hend : st = .streamEnd
  · rw [if_pos hend] at h
    cases h
  by_cases hbad : st ≠ .ok ∧ st ≠ .needInput ∧ st ≠ .needOutput
  · rw [if_neg hend, if_pos hbad] at h
    cases h
  rw [if_neg hend, if_neg hbad] at h
  split_ifs at h
  cases h
  refine ⟨rfl, ?_, hend⟩
  cases st <;> first | rfl | exact absurd ⟨nofun, nofun, nofun⟩ hbad

theorem wholeTurn_error {η : Type} (process : η → Buffer → Flush → Status × η × Buffer)
    {r : RunOpts} {x : Whole η} {st : Status} (h : reserve x.out r.outChunk = .error st) :
    wholeTurn process r x = .inr (st, (x.refill r).finish r x.out) := by
  unfold wholeTurn
  dsimp only
  rw [Whole.refill_out, h]

theorem wholeTurn_ok {η : Type} (process : η → Buffer → Flush → Status × η × Buffer)
    {r : RunOpts} {x : Whole η} {out : OutBuf} (h : reserve x.out r.outChunk = .ok out) :
    wholeTurn process r x = (x.refill r).judge r out
      (process x.handle (.ofParts (x.refill r).slice r.outChunk) ((x.refill r).mode r)) := by
  unfold wholeTurn
  dsimp only
  rw [Whole.refill_out, h, Whole.refill_handle]

/-- What the limited run makes of a turn: the same, or an end for the ratio after a call
that leaves the counters over it. -/
inductive LimitedTurn (x : Whole (Decoder v)) (r : RunOpts) (maxRatio : UInt32) : Prop
  | same (error : x.OverAt r maxRatio →
        ∃ e, wholeTurn decoderProcess r x = .inr e ∧ e.1 ≠ .streamEnd)
      (turn : wholeTurn decoderProcess r (x.limited maxRatio) =
        (wholeTurn decoderProcess r x).map (·.limited maxRatio) id)
  | refused (exceeds : x.OverAt r maxRatio) {out : OutBuf}
      (turn : wholeTurn decoderProcess r (x.limited maxRatio) = .inr (.errRatioLimit, out))

theorem wholeTurn_limited {x : Whole (Decoder v)} (h : x.Open) (r : RunOpts) (maxRatio : UInt32) :
    LimitedTurn x r maxRatio := by
  obtain ⟨hdec, hbuf, hst⟩ := decoderCall_limited h.noRatio h.unfinished maxRatio
    (.ofParts (x.refill r).slice r.outChunk) ((x.refill r).mode r)
  have hlimited : (x.limited maxRatio).out = x.out := rfl
  cases hreserve : reserve x.out r.outChunk with
  | error st =>
    refine .same (fun ⟨⟨out, hok⟩, _⟩ => ?_) ?_
    · rw [hreserve] at hok
      cases hok
    · rw [wholeTurn_error _ hreserve, wholeTurn_error _ (hlimited ▸ hreserve),
        Whole.refill_limited]
      rfl
  | ok out =>
    have hturn := wholeTurn_ok decoderProcess hreserve
    have hturn' := wholeTurn_ok decoderProcess (x := x.limited maxRatio) (hlimited ▸ hreserve)
    rw [Whole.refill_limited] at hturn'
    change _ = Whole.judge r ((x.refill r).limited maxRatio) out
      (decoderProcess (x.handle.limited maxRatio) (.ofParts (x.refill r).slice r.outChunk)
        ((x.refill r).mode r)) at hturn'
    rcases hst with ⟨hsame, hpass⟩ | ⟨hrefuse, hover⟩
    · refine .same (fun hover => ?_) ?_
      · have herr := hpass.resolve_right (fun hne => hne hover.2)
        obtain ⟨out', hjudge⟩ := (x.refill r).judge_error r out
          (c := decoderProcess x.handle (.ofParts (x.refill r).slice r.outChunk)
            ((x.refill r).mode r)) herr
        refine ⟨_, hturn.trans hjudge, ?_⟩
        intro (hend : (decoderCall x.handle (.ofParts (x.refill r).slice r.outChunk)
          ((x.refill r).mode r)).status = .streamEnd)
        rw [hend] at herr
        cases herr
      · rw [hturn, hturn', ← Whole.judge_limited]
        simp only [decoderProcess, hsame, hdec, hbuf]
    · obtain ⟨out', hjudge⟩ := ((x.refill r).limited maxRatio).judge_error r out
        (c := decoderProcess (x.handle.limited maxRatio) (.ofParts (x.refill r).slice r.outChunk)
          ((x.refill r).mode r)) (by rw [decoderProcess, hrefuse]; rfl)
      exact .refused ⟨⟨out, hreserve⟩, hover⟩ (by rw [hturn', hjudge, decoderProcess, hrefuse])

theorem Whole.Open.next {x x' : Whole (Decoder v)} (h : x.Open) {r : RunOpts}
    (hturn : wholeTurn decoderProcess r x = .inl x') : x'.Open := by
  cases hreserve : reserve x.out r.outChunk with
  | error st =>
    rw [wholeTurn_error _ hreserve] at hturn
    cases hturn
  | ok out =>
    rw [wholeTurn_ok _ hreserve] at hturn
    obtain ⟨hhandle, herr, hend⟩ := judge_next hturn
    refine ⟨?_, ?_⟩
    · rw [hhandle]
      exact (congrArg DecoderOpts.maxRatio (decoderCall_opts ..)).trans h.noRatio
    · rw [hhandle]
      exact decoderCall_unfinished h.unfinished herr hend

/-- Some call of the run leaves the counters over the ratio. -/
def Whole.Exceeds (r : RunOpts) (maxRatio : UInt32) (x : Whole (Decoder v)) : Prop :=
  ∃ y, Reaches (wholeTurn decoderProcess r) x y ∧ y.OverAt r maxRatio

/-- The run under a ratio limit ends as the one without, or for the ratio after a call that
leaves the counters over it; after such a call it does not reach the end of the stream. -/
theorem limited_returns {x : Whole (Decoder v)} (hopen : x.Open) {r : RunOpts}
    (maxRatio : UInt32) {e : Status × OutBuf} (hret : Returns (wholeTurn decoderProcess r) x e) :
    ∃ e', Returns (wholeTurn decoderProcess r) (x.limited maxRatio) e' ∧
      (¬ x.Exceeds r maxRatio → e' = e) ∧
      (x.Exceeds r maxRatio → (e'.1 = e.1 ∨ e'.1 = .errRatioLimit) ∧
        (e.1 = .streamEnd → e'.1 = .errRatioLimit)) := by
  obtain ⟨z, hreach, hz⟩ := hret
  induction hreach using Relation.ReflTransGen.head_induction_on with
  | refl =>
    cases wholeTurn_limited hopen r maxRatio with
    | same error turn =>
      rw [hz] at turn
      refine ⟨e, .done turn, fun _ => rfl, fun ⟨y, hy, hover⟩ => ⟨.inl rfl, fun hend => ?_⟩⟩
      rcases Relation.ReflTransGen.cases_head hy with rfl | ⟨y', hstep, _⟩
      · obtain ⟨e', he', hne⟩ := error hover
        rw [hz] at he'
        cases he'
        exact absurd hend hne
      · rw [hz] at hstep
        cases hstep
    | refused exceeds turn =>
      exact ⟨_, .done turn, fun hno => absurd ⟨z, .refl, exceeds⟩ hno, fun _ => ⟨.inr rfl, fun _ => rfl⟩⟩
  | @head x x' hstep hrest ih =>
    cases wholeTurn_limited hopen r maxRatio with
    | same error turn =>
      rw [hstep] at turn
      obtain ⟨e', hret', hsame, hexceeds⟩ := ih (hopen.next hstep)
      refine ⟨e', hret'.turn turn, fun hno => hsame fun ⟨y, hy, hover⟩ =>
        hno ⟨y, .head hstep hy, hover⟩, fun ⟨y, hy, hover⟩ => hexceeds ⟨y, ?_, hover⟩⟩
      rcases Relation.ReflTransGen.cases_head hy with rfl | ⟨y', hstep', hy'⟩
      · obtain ⟨e', he', _⟩ := error hover
        rw [hstep] at he'
        cases he'
      · rw [hstep] at hstep'
        cases hstep'
        exact hy'
    | refused exceeds turn =>
      exact ⟨_, .done turn, fun hno => absurd ⟨x, .refl, exceeds⟩ hno, fun _ => ⟨.inr rfl, fun _ => rfl⟩⟩

/-- Without a ratio limit the runs of a handle over a source all end alike and deliver the
same bytes, whatever the chunks, as long as the sink fits a `size_t`. -/
def SplitIndependent (d : Decoder v) (r : RunOpts) (st : Status) (bytes : List UInt8) : Prop :=
  ∀ c : Chunking, bytes.length + c.outChunk < wordSize →
    ∃ out, Returns (wholeTurn decoderProcess (r.chunked c)) (.start (d.limited 0) r .empty) (st, out) ∧
      out.used = bytes

end Zukomp
