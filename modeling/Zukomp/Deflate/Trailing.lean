import Zukomp.Core.Offering
import Zukomp.Deflate.Delivery

/-! # What follows the last gzip member

Whatever the split, a caller that offers all of its buffers is given the text of the members
and hears what their tail comes to: nothing, trailing bytes, or the error of the header that it
begins. A first magic byte at the end of a buffer is read before that can be known.
-/

namespace Zukomp

open Library

variable {M : Miniz} {Valid : Progressive UInt8 → Prop} {codec : CodecId}
  {lookup : CodecId → Option CodecVtable} {opts : DecoderOpts}
  {chunks : List (List UInt8)} {m : Member} {ms : List Member} {tail junk : List UInt8}

/-- The members that a decoder decodes: the first alone, without `ZU_DEC_CONCAT_MEMBERS`. -/
def DecoderOpts.decoded (o : DecoderOpts) (m : Member) (ms : List Member) : List Member :=
  if o.concatMembers then m :: ms else [m]

def DecoderOpts.leftover (o : DecoderOpts) (ms : List Member) (tail : List UInt8) : List UInt8 :=
  if o.concatMembers then tail else Member.codes ms ++ tail

/-- What the bytes after the members come to: a member begun, whose header errs; trailing bytes;
or nothing. -/
def DecoderOpts.tailStatus (o : DecoderOpts) (junk : List UInt8) : Status :=
  if o.concatMembers ∧ gzipMagic <+: junk then
    (gzipHeaderInit.headerError junk).getD .streamEnd
  else if junk ≠ [] ∧ o.rejectTrailing then .errTrailing
  else .streamEnd

theorem DecoderOpts.mayFollow_iff (o : DecoderOpts) :
    WrapKind.gzip.MayFollow o.flags ↔ o.concatMembers = true := by
  simp [WrapKind.MayFollow, concatMembers]

theorem DecoderOpts.rejectTrailing_iff (o : DecoderOpts) :
    o.flags &&& decRejectTrailing ≠ 0 ↔ o.rejectTrailing = true := by
  simp [rejectTrailing]

theorem DecoderOpts.closing_unlimited {o : DecoderOpts} (h : o.ceiling = none) (D : ℕ)
    (unread : Bool) :
    o.closing D unread .streamEnd =
      if unread ∧ o.rejectTrailing then .errTrailing else .streamEnd := by
  rw [closing_streamEnd, if_neg (by simp [hasExpected_of_none h])]

theorem DecoderOpts.above_unlimited {o : DecoderOpts} (h : o.ceiling = none)
    (hratio : o.maxRatio = 0) (D : ℕ) : o.Above D :=
  ⟨hratio, fun C status hc => by rw [h] at hc; cases hc⟩

theorem DecoderOpts.maxOutput_unlimited {o : DecoderOpts} (h : o.ceiling = none) :
    o.maxOutput = 0 := by
  unfold ceiling at h
  split_ifs at h with h1 h2
  simpa using h2

/-- Valid members followed by any tail, as the decoder takes them. -/
theorem gzipTailed (o : DecoderOpts)
    (hms : ∀ n ∈ m :: ms, WrapKind.gzip.ValidMember Valid n)
    (htail : gzipMagic <+: tail → (gzipHeaderInit.headerError tail).isSome = true) :
    WrapKind.gzip.TailedStream Valid o.flags (o.decoded m ms) (o.leftover ms tail) := by
  have hmem : ∀ n ∈ o.decoded m ms, WrapKind.gzip.ValidMember Valid n := by
    intro n hn
    refine hms n ?_
    unfold DecoderOpts.decoded at hn
    split_ifs at hn with hc
    · exact hn
    · rw [List.mem_singleton.mp hn]
      exact List.mem_cons_self
  refine ⟨fun n hn => (hmem n hn).head, fun n hn => (hmem n hn).body, fun n hn => ?_,
    fun heq _ => (hmem _ (by simp [heq])).tail, ?_, fun hc => ?_, fun hc hb => ?_⟩
  · rw [(hmem n hn).tail, WrapKind.length_tailOf]
  · unfold DecoderOpts.decoded
    split_ifs <;> simp
  · rw [o.mayFollow_iff] at hc
    simp [DecoderOpts.decoded, hc]
  · rw [o.mayFollow_iff] at hc
    rw [DecoderOpts.leftover, if_pos hc] at hb ⊢
    exact htail hb

theorem codes_decoded (o : DecoderOpts) (m : Member) (ms : List Member) (tail : List UInt8) :
    Member.codes (o.decoded m ms) ++ o.leftover ms tail = Member.codes (m :: ms) ++ tail := by
  unfold DecoderOpts.decoded DecoderOpts.leftover
  split_ifs <;> simp

variable {d : Decoder (deflateVtable M codec .gzip)}

/-- How the bytes after the members are told from `left`, those that were never read: all of them
are left, but for a first magic byte that had to be held where a buffer ends. -/
def LeftOf (o : DecoderOpts) (chunks : List (List UInt8)) (ms : List Member)
    (junk left : List UInt8) : Prop :=
  left.length ≤ junk.length ∧ (¬ (o.concatMembers ∧ gzipMagic <+: junk) → left = junk ∨
    [0x1F] <+: junk ∧ Boundary chunks ((Member.codes ms).length + 1) ∧ left = junk.drop 1)

/-- The end of a stream whose trailers are right is what its tail comes to. -/
theorem StreamEnds.tailStatus {o : DecoderOpts} {p u : ℕ} {last empty : Bool} {st : Status}
    (hnone : o.ceiling = none) (hright : ∀ n ∈ ms, n.tail = WrapKind.gzip.tailOf n.text)
    (hwaited : holds ms junk p = true → Boundary chunks p)
    (h : StreamEnds .gzip o.flags ms junk (holds ms junk p) last (p + u) empty st) :
    (∀ D, o.closing D (decide ((tailedCoding ms junk).code.drop (p + u) ≠ [])) st =
      o.tailStatus junk) ∧ LeftOf o chunks ms junk ((tailedCoding ms junk).code.drop (p + u)) := by
  have hdrop (k : ℕ) : (tailedCoding ms junk).code.drop ((Member.codes ms).length + k) =
      junk.drop k := by
    simp [tailedCoding, streamCoding]
  have hboundary (hw : holds ms junk p = true) (hread : p + u = (Member.codes ms).length + 1) :
      Boundary chunks ((Member.codes ms).length + 1) := by
    have hb := hwaited hw
    simp only [holds, decide_eq_true_eq] at hw
    obtain rfl : p = (Member.codes ms).length + 1 := by omega
    exact hb
  generalize hw : holds ms junk p = waited at h
  generalize hread : p + u = read at h ⊢
  cases h with
  | @checksum _ _ _ _ n eq wrong => exact absurd (hright n (by simp [eq])) wrong
  | ended eq right seen alone =>
    have hno : ¬ (o.concatMembers ∧ gzipMagic <+: junk) := fun h =>
      (seen (o.mayFollow_iff.mpr h.1)).2 h.2
    have hleft := hdrop 0
    rw [Nat.add_zero, List.drop_zero] at hleft
    rw [hleft, DecoderOpts.tailStatus, if_neg hno]
    exact ⟨fun D => by rw [o.closing_unlimited hnone]; simp, le_rfl, fun _ => .inl rfl⟩
  | @dropped last pre n eq right follow b rest junk_eq other =>
    have hno : ¬ (o.concatMembers ∧ gzipMagic <+: junk) := by
      rintro ⟨-, t, ht⟩
      rw [junk_eq] at ht
      simp only [gzipMagic, List.cons_append, List.nil_append, List.cons.injEq, true_and] at ht
      exact other ht.1.symm
    have hne : decide (junk.drop 1 ≠ []) = true ∧ junk ≠ [] := by simp [junk_eq]
    rw [hdrop, DecoderOpts.tailStatus, if_neg hno, hne.1]
    refine ⟨fun D => ?_, by simp, fun _ => .inr ⟨?_, hboundary hw hread, rfl⟩⟩
    · rw [o.closing_unlimited hnone]
      simp [hne.2]
    rw [junk_eq]
    exact ⟨_, rfl⟩
  | held eq right follow junk_eq =>
    have hno : ¬ (o.concatMembers ∧ gzipMagic <+: junk) := by
      rintro ⟨-, hb⟩
      rw [junk_eq] at hb
      exact absurd hb.length_le (by simp [gzipMagic])
    rw [hdrop, DecoderOpts.tailStatus, if_neg hno]
    refine ⟨fun D => ?_, by simp, fun _ => .inr ⟨by simp [junk_eq], hboundary hw hread, rfl⟩⟩
    by_cases hr : o.rejectTrailing = true
    · rw [if_pos (o.rejectTrailing_iff.mpr hr), DecoderOpts.closing_of_ne (by simp)]
      simp [junk_eq, hr]
    · rw [if_neg (fun h => hr (o.rejectTrailing_iff.mp h)), o.closing_unlimited hnone]
      simp [hr]
  | @committed waited last empty pre n eq right follow begins read st read_le error =>
    have hc := o.mayFollow_iff.mp follow
    have herr := GzipHeader.headerError_isError error
    rw [DecoderOpts.tailStatus, if_pos ⟨hc, begins⟩, error]
    refine ⟨fun D => DecoderOpts.closing_of_ne (by rintro rfl; cases herr), ?_, fun h => absurd ⟨hc, begins⟩ h⟩
    simp only [tailedCoding, streamCoding, Coding.followed_code, List.length_drop,
      List.length_append]
    omega

/-- A caller that offers all of its buffers is given the text and hears what the tail comes to,
unless the engine is starved; then more than the tail is left. -/
theorem gzip_offer_ends (I : Inflates M.inflate Valid)
    (hnew : decoderNew lookup opts = .ok ⟨deflateVtable M codec .gzip, d⟩)
    (hstream : WrapKind.gzip.TailedStream Valid d.opts.flags ms junk)
    (hright : ∀ n ∈ ms, n.tail = WrapKind.gzip.tailOf n.text) (hnone : d.opts.ceiling = none)
    (hratio : d.opts.maxRatio = 0) (hchunks : chunks.flatten = Member.codes ms ++ junk)
    (ws : Windows) (room : ℕ) :
    ((∀ f, Reaches (feedTurn ws) (Feed.start d room chunks) f → ¬ StarvedAt f) ∧
      ∃ left, Returns (offerTurn ws) (Feed.start d room chunks)
          ⟨d.opts.tailStatus junk, Member.texts ms, left⟩ ∧ LeftOf d.opts chunks ms junk left) ∨
    (∃ f, Reaches (feedTurn ws) (Feed.start d room chunks) f ∧ StarvedAt f) ∧
      ∃ written left, Returns (offerTurn ws) (Feed.start d room chunks)
        ⟨.errInvalidData, written, left⟩ ∧ junk.length < left.length := by
  have hne : chunks ≠ [] := by
    rintro rfl
    exact Member.codes_ne_nil hstream.nonempty (List.append_eq_nil_iff.mp hchunks.symm).1
  have hwaits : holds ms junk 0 = false := holds_of_le (Nat.zero_le _)
  rcases ClosingDecoder.offer_ends ws (DecoderOpts.above_unlimited hnone hratio _)
      (DecoderOpts.maxOutput_unlimited hnone) (deflateClosing_start I hnew hstream)
      hwaits hchunks hne room with
    ⟨hstarved, f, p, q, u, o, st, hend, hret⟩ | ⟨hstarved, written, left, hret, hlong⟩
  · refine .inl ⟨hstarved, (tailedCoding ms junk).code.drop (p + u), ?_⟩
    obtain ⟨hstatus, hleft⟩ := hend.ends.tailStatus hnone hright hend.follows.waited
    rw [← hstatus (Member.texts ms).length]
    exact ⟨hret, hleft⟩
  · refine .inr ⟨hstarved, written, left, hret, ?_⟩
    have hlen : (tailedCoding ms junk).code.length - (Member.codes ms).length = junk.length := by
      simp [tailedCoding, streamCoding]
    exact hlen ▸ hlong

/-! ## A gzip stream of one body -/

def gzipMember (c : Progressive UInt8) : Member :=
  ⟨gzipWriteHeader, c, WrapKind.gzip.tailOf c.text⟩

theorem gzipWriteHeader_valid : WrapKind.ValidHead .gzip gzipWriteHeader :=
  ⟨plainFields, plainFields_bytes⟩

theorem gzipMember_valid (c : Progressive UInt8) :
    ∀ n ∈ [gzipMember c], WrapKind.gzip.ValidMember (· = c) n := by
  intro n hn
  rw [List.mem_singleton.mp hn]
  exact ⟨gzipWriteHeader_valid, rfl, rfl⟩

def tailOpts (flags : UInt32) : DecoderOpts :=
  { structSize := decoderOptsSize, codec := codecGzip, maxOutput := 0, maxRatio := 0
    flags := flags, expectedSize := 0 }

def gzipRef (c : Progressive UInt8) : CodecId → Option CodecVtable :=
  fun _ => some (gzipCodec (refMiniz c))

/-- A new gzip decoder over the reference engine. -/
def tailDecoder (c : Progressive UInt8) (flags : UInt32) :
    Decoder (deflateVtable (refMiniz c) codecGzip .gzip) where
  state := {
    mz := ⟨0, 0, false⟩, mzCalled := false, encoder := false, wrap := .gzip, state := .header
    level := mzDefaultLevel, hdr := List.replicate gzipHeaderLen 0, hdrLen := gzipHeaderLen
    hdrPos := 0, tail := List.replicate 8 0, tailLen := 8, tailPos := 0
    checksum := checksumInit .gzip, uncompressed := 0, gz := gzipHeaderInit, decFlags := flags
    probeMagic := false }
  opts := tailOpts flags
  finished := false
  totalIn := 0
  totalOut := 0

theorem tailDecoder_new (c : Progressive UInt8) (flags : UInt32)
    (hflags : flags &&& decExpectedSize = 0) :
    decoderNew (gzipRef c) (tailOpts flags) =
      .ok ⟨deflateVtable (refMiniz c) codecGzip .gzip, tailDecoder c flags⟩ := by
  have hsize : ¬ decoderOptsSize < decoderOptsRequiredSize := by decide
  have hcheck : checkDecOpts (tailOpts flags) = .ok := by
    simp [checkDecOpts, tailOpts, DecoderOpts.hasExpected, hsize, hflags]
  have hcan : (gzipCodec (refMiniz c)).can canDecode = true := by
    show (canEncode ||| canDecode ||| canFlush) &&& canDecode != 0
    decide
  rw [decoderNew, if_neg (by simp [hcheck])]
  simp only [resolve, gzipRef, hcan, if_true]
  rfl

theorem tailOpts_unlimited (flags : UInt32) (hflags : flags &&& decExpectedSize = 0) :
    (tailOpts flags).ceiling = none := by
  simp [DecoderOpts.ceiling, DecoderOpts.hasExpected, tailOpts, hflags]

/-- A header in one buffer is read to its end. -/
theorem gzipHeader_reaches {E : MzStream} {mode : Flush} {head : List UInt8} (hne : head ≠ [])
    {s : DeflateState E} (hs : s.state = .header) (hw : s.wrap = .gzip) (henc : s.encoder = false)
    (ha : s.gz.Awaits head) (rest : List UInt8) (room : ℕ) (written : List UInt8) :
    ∃ gz, Reaches (deflateStep mode) (s, ⟨head ++ rest, room, written⟩)
      ({ s with gz := gz, state := .body }, ⟨rest, room, written⟩) := by
  induction head generalizing s with
  | nil => exact absurd rfl hne
  | cons b head ih =>
    obtain ⟨gz, hfeed, hnext⟩ := ha.feed
    have hstep : deflateStep mode (s, ⟨b :: head ++ rest, room, written⟩) =
        if head.isEmpty then
          .inl ({ s with gz := gz, state := .body }, ⟨head ++ rest, room, written⟩)
        else .inl ({ s with gz := gz }, ⟨head ++ rest, room, written⟩) := by
      have hheader (w : Window) : deflateStep mode (s, w) = headerStep s w mode := by
        unfold deflateStep
        rw [hs]
      rw [hheader, headerStep, if_neg (by simp [henc]), if_pos hw]
      simp only [List.cons_append, hfeed]
      cases head with
      | nil => rfl
      | cons b' head =>
        rw [if_neg (by simp)]
        rfl
    cases head with
    | nil =>
      refine ⟨gz, .single ?_⟩
      simpa using hstep
    | cons b' head =>
      rw [if_neg (by simp)] at hstep
      obtain ⟨gz', hreach⟩ := @ih (by simp) { s with gz := gz } hs hw henc hnext
      exact ⟨gz', .head hstep hreach⟩

/-- A body beyond twice the clamp, with room for all of its text, starves the engine. -/
structure Outgrows (c : Progressive UInt8) : Prop where
  long : 2 * mzClamp < c.code.length
  fits : c.ready mzClamp ≤ mzClamp
  room : c.ready (2 * mzClamp) - c.ready mzClamp <
    min (c.text.length - c.ready mzClamp) mzClamp

/-- Over 4 GiB of stored blocks do. -/
theorem storedZeros_outgrows : Outgrows (storedZeros 70000) := by
  refine ⟨?_, ?_, ?_⟩
  · rw [length_storedZeros]
    norm_num [mzClamp]
  · rw [storedZeros_ready]
    norm_num [mzClamp]
  · rw [storedZeros_ready, storedZeros_ready, length_text_storedZeros]
    norm_num [mzClamp]

/-- A new gzip decoder starves its engine on such a body in one buffer. -/
theorem Outgrows.starves {c : Progressive UInt8} (h : Outgrows c) {s : DeflateState (refInflate c)}
    (hs : s.state = .header) (hwrap : s.wrap = .gzip) (henc : s.encoder = false)
    (hgz : s.gz = gzipHeaderInit) (hcalled : s.mzCalled = false)
    (hmz : s.mz = (⟨0, 0, false⟩ : RefInflate)) (rest : List UInt8) :
    Starves s ⟨gzipWriteHeader ++ (c.code ++ rest), c.text.length, []⟩ .finish := by
  have hready := c.ready_le (show mzClamp ≤ c.code.length by have := h.long; omega)
  have hawaits : s.gz.Awaits gzipWriteHeader := by
    obtain ⟨g, hg⟩ := gzipWriteHeader_valid
    rw [hgz, hg]
    exact g.awaits_bytes
  obtain ⟨gz, hreach⟩ := @gzipHeader_reaches (refInflate c) .finish _ (by decide) s hs hwrap henc
    hawaits (c.code ++ rest) c.text.length []
  obtain ⟨x, hx, hst⟩ := refInflate_starves c (s := { s with gz := gz, state := .body }) rfl henc
    hcalled hmz h.long (by have := h.fits; omega) h.room rest
  exact ⟨x, hreach.trans hx, hst⟩

theorem Outgrows.starvedAt {c : Progressive UInt8} (h : Outgrows c) (flags : UInt32)
    (hflags : flags &&& decExpectedSize = 0) (rest : List UInt8) :
    StarvedAt (Feed.start (tailDecoder c flags) c.text.length
      [gzipWriteHeader ++ (c.code ++ rest)]) := by
  have hshown (bytes : List UInt8) : StreamDecoder.shownWindow (tailDecoder c flags)
      (.ofParts bytes c.text.length) = ⟨bytes, c.text.length, []⟩ := by
    rw [StreamDecoder.shownWindow, Decoder.allowance_none _ (tailOpts_unlimited flags hflags),
      Buffer.unread_ofParts, Buffer.availOut_ofParts]
  rw [StarvedAt, Feed.start, hshown]
  exact h.starves (s := (tailDecoder c flags).state) rfl rfl rfl rfl rfl rfl rest

/-! ## The tail of any members -/

/-- Every split of any members and any tail, to any windows, comes to the same status and the
same text, exactly as long as no call starves the engine. -/
theorem tail_classified {d : Decoder (deflateVtable M codecGzip .gzip)} (I : Inflates M.inflate Valid)
    (hnew : decoderNew lookup opts = .ok ⟨deflateVtable M codecGzip .gzip, d⟩)
    (hms : ∀ n ∈ m :: ms, WrapKind.gzip.ValidMember Valid n)
    (htail : gzipMagic <+: tail → (gzipHeaderInit.headerError tail).isSome = true)
    (hnone : d.opts.ceiling = none) (hratio : d.opts.maxRatio = 0)
    (hchunks : chunks.flatten = Member.codes (m :: ms) ++ tail) (ws : Windows) (room : ℕ) :
    (∃ left, Returns (offerTurn ws) (Feed.start d room chunks)
        ⟨d.opts.tailStatus (d.opts.leftover ms tail), Member.texts (d.opts.decoded m ms), left⟩ ∧
      LeftOf d.opts chunks (d.opts.decoded m ms) (d.opts.leftover ms tail) left) ↔
    ∀ f, Reaches (feedTurn ws) (Feed.start d room chunks) f → ¬ StarvedAt f := by
  have hright : ∀ n ∈ d.opts.decoded m ms, n.tail = WrapKind.gzip.tailOf n.text := by
    intro n hn
    refine (hms n ?_).tail
    unfold DecoderOpts.decoded at hn
    split_ifs at hn <;> simp_all
  rcases gzip_offer_ends I hnew (gzipTailed d.opts hms htail) hright hnone hratio
      (hchunks.trans (codes_decoded d.opts m ms tail).symm) ws room with
    ⟨hstarved, hret⟩ | ⟨⟨f, hreach, hst⟩, written, left, hret, hlong⟩
  · exact ⟨fun _ => hstarved, fun _ => hret⟩
  · refine ⟨?_, fun hnot => absurd hst (hnot f hreach)⟩
    rintro ⟨left', hret', hleft, -⟩
    have := congrArg Offered.left (hret.unique hret')
    simp only at this
    rw [this] at hlong
    omega

/-- A tail after over 4 GiB of stored blocks, all in one buffer, is never come to. -/
theorem Outgrows.mistaken {c : Progressive UInt8} (h : Outgrows c) {st : Status}
    (hst : st ≠ .errInvalidData) {tail written left : List UInt8} (ws : Windows)
    (htail : ¬ gzipMagic <+: tail) : ¬ Returns (offerTurn ws)
      (Feed.start (tailDecoder c decConcatMembers) c.text.length
        [gzipWriteHeader ++ (c.code ++ (WrapKind.gzip.tailOf c.text ++ tail))])
      ⟨st, written, left⟩ := by
  intro hret
  have hstarved := h.starvedAt decConcatMembers (by decide)
    (WrapKind.gzip.tailOf c.text ++ tail)
  have hvalid := gzipMember_valid c
  have hstream := gzipTailed (tailOpts decConcatMembers) hvalid fun hb => absurd hb htail
  have hcodes : [gzipWriteHeader ++ (c.code ++ (WrapKind.gzip.tailOf c.text ++ tail))].flatten =
      Member.codes [gzipMember c] ++ tail := by
    simp [Member.codes, Member.code, gzipMember]
  rcases gzip_offer_ends (refInflates c) (tailDecoder_new c decConcatMembers (by decide)) hstream
      (fun n hn => (hvalid n hn).tail) (tailOpts_unlimited decConcatMembers (by decide)) rfl hcodes ws
      c.text.length with ⟨hnone, -⟩ | ⟨-, written', left', hret', -⟩
  · exact hnone _ .refl hstarved
  · exact hst (congrArg Offered.status (hret.unique hret'))

theorem tail_mistaken :
    ¬ ∀ (M : Miniz) (Valid : Progressive UInt8 → Prop) (_ : Inflates M.inflate Valid)
      (lookup : CodecId → Option CodecVtable) (opts : DecoderOpts)
      (d : Decoder (deflateVtable M codecGzip .gzip))
      (_ : decoderNew lookup opts = .ok ⟨deflateVtable M codecGzip .gzip, d⟩) (m : Member)
      (ms : List Member) (_ : ∀ n ∈ m :: ms, WrapKind.gzip.ValidMember Valid n)
      (tail : List UInt8)
      (_ : gzipMagic <+: tail → (gzipHeaderInit.headerError tail).isSome = true)
      (_ : d.opts.ceiling = none) (_ : d.opts.maxRatio = 0) (chunks : List (List UInt8))
      (_ : ∀ chunk ∈ chunks, chunk ≠ []) (_ : chunks.flatten = Member.codes (m :: ms) ++ tail)
      (ws : Windows) (room : ℕ) (_ : 0 < room),
      ∃ left, Returns (offerTurn ws) (Feed.start d room chunks)
        ⟨d.opts.tailStatus (d.opts.leftover ms tail), Member.texts (d.opts.decoded m ms), left⟩ := by
  intro hall
  have h := storedZeros_outgrows
  generalize storedZeros 70000 = c at h
  have htail : ¬ gzipMagic <+: [0x00] := by decide
  obtain ⟨left, hret⟩ := hall (refMiniz c) _ (refInflates c) _ _ _
    (tailDecoder_new c decConcatMembers (by decide)) (gzipMember c) []
    (gzipMember_valid c) [0x00] (fun hb => absurd hb htail) (tailOpts_unlimited decConcatMembers (by decide)) rfl
    [gzipWriteHeader ++ (c.code ++ (WrapKind.gzip.tailOf c.text ++ [0x00]))]
    (by simp [gzipWriteHeader]) (by simp [Member.codes, Member.code, gzipMember]) byteWindows
    c.text.length (by have := h.room; omega)
  have hst : (tailOpts decConcatMembers).tailStatus ((tailOpts decConcatMembers).leftover []
      [0x00]) ≠ .errInvalidData := by decide
  exact h.mistaken hst byteWindows htail hret

/-- In buffers that fit the engine's input no call starves it. -/
theorem tailed_not_starvedAt (I : Inflates M.inflate Valid) {wrap : WrapKind}
    {d : Decoder (deflateVtable M codec wrap)}
    (hnew : decoderNew lookup opts = .ok ⟨deflateVtable M codec wrap, d⟩)
    (hstream : wrap.TailedStream Valid d.opts.flags ms junk) (hnone : d.opts.ceiling = none)
    (hratio : d.opts.maxRatio = 0) (hchunks : chunks.flatten = Member.codes ms ++ junk)
    (ws : Windows) (room : ℕ) (hsmall : ∀ chunk ∈ chunks, chunk.length ≤ mzClamp)
    {f : Feed (deflateVtable M codec wrap)}
    (hf : Reaches (feedTurn ws) (Feed.start d room chunks) f) : ¬ StarvedAt f := by
  have hne : chunks ≠ [] := by
    rintro rfl
    exact Member.codes_ne_nil hstream.nonempty (List.append_eq_nil_iff.mp hchunks.symm).1
  have hwaits : holds ms junk 0 = false := holds_of_le (Nat.zero_le _)
  have hstart := ClosingDecoder.follows_start (deflateClosing_start I hnew hstream) hwaits hchunks
    hne room
  obtain ⟨p, q, hfollows⟩ := hstart.reaches ws (DecoderOpts.above_unlimited hnone hratio _)
    (DecoderOpts.maxOutput_unlimited hnone) hchunks hf
  obtain ⟨chunk, hmem, hle⟩ := hfollows.unread_le hchunks
  intro hst
  have := hsmall chunk hmem
  have := hst.long
  omega

/-- A first magic byte in a buffer of its own. -/
theorem tail_classified_held :
    ∃ left, Returns (offerTurn byteWindows)
      (Feed.start (tailDecoder fixedA (decConcatMembers ||| decRejectTrailing)) 1
        [(gzipMember fixedA).code, [0x1F], []]) ⟨.errTrailing, [0x61], left⟩ := by
  have hvalid := gzipMember_valid fixedA
  have htail : ¬ gzipMagic <+: [0x1F] := by decide
  have hnone := tailOpts_unlimited (decConcatMembers ||| decRejectTrailing) (by decide)
  have hcodes : [(gzipMember fixedA).code, [0x1F], []].flatten =
      Member.codes [gzipMember fixedA] ++ [0x1F] := by simp [Member.codes]
  have hnew := tailDecoder_new fixedA (decConcatMembers ||| decRejectTrailing) (by decide)
  obtain ⟨left, hret, -⟩ := (tail_classified (refInflates fixedA) hnew hvalid
    (fun hb => absurd hb htail) hnone rfl hcodes byteWindows 1).mpr fun f hf =>
      tailed_not_starvedAt (refInflates fixedA) hnew
        (gzipTailed (tailOpts (decConcatMembers ||| decRejectTrailing)) hvalid
          fun hb => absurd hb htail) hnone rfl hcodes byteWindows 1
        (by simp [gzipMember, Member.code, gzipWriteHeader, fixedA, mzClamp, tailLength]) hf
  exact ⟨left, hret⟩

end Zukomp
