import Zukomp.Deflate.Compressor
import Zukomp.Deflate.Trailing

/-! # The wrappers round-trip

What an encoder has written is one member with a header that a decoder accepts and the trailer of
the whole payload. A decoder gives the payload back, or hears that the trailer is not its own,
whatever the split on either side, unless the clamp on its input starves the engine.
-/

namespace Zukomp

open Library

variable {M : Miniz} {Body : Progressive UInt8 → Prop} {codec : CodecId} {wrap : WrapKind}
  {lookup lookup' : CodecId → Option CodecVtable} {opts : DecoderOpts} {opts' : EncoderOpts}
  {d : Decoder (deflateVtable M codec wrap)} {e : Encoder (deflateVtable M codec wrap)}
  {chunks : List (List UInt8)} {x b : List UInt8}

/-! ## One member -/

theorem WrapKind.validHead_headOf (wrap : WrapKind) (level : ℤ) :
    wrap.ValidHead (wrap.headOf level) := by
  cases wrap with
  | none => rfl
  | zlib =>
    obtain ⟨flg, hhead, -, hcheck, hdict⟩ := zlibHeader_valid level
    exact ⟨0x78, flg, hhead, by decide, by decide, hcheck, hdict⟩
  | gzip => exact gzipWriteHeader_valid

theorem single_tailed {decFlags : UInt32} {m : Member} (hhead : wrap.ValidHead m.head)
    (hbody : Body m.body) (htail : m.tail.length = tailLength wrap) :
    wrap.TailedStream Body decFlags [m] [] where
  heads n hn := List.mem_singleton.mp hn ▸ hhead
  bodies n hn := List.mem_singleton.mp hn ▸ hbody
  tails n hn := List.mem_singleton.mp hn ▸ htail
  sound {pre n post} heq hpost := by
    have hlen := congrArg List.length heq
    rw [List.length_singleton, List.length_append, List.length_cons] at hlen
    exact absurd (List.eq_nil_of_length_eq_zero (by omega)) hpost
  nonempty := by simp
  single _ := rfl
  tail _ hb := absurd hb.length_le (by simp [gzipMagic])

/-- How a stream of one member ends: with its last byte, by what its trailer is. -/
theorem StreamEnds.single {decFlags : UInt32} {m : Member} {waited last empty : Bool} {read : ℕ}
    {st : Status} (h : StreamEnds wrap decFlags [m] [] waited last read empty st) :
    read = m.code.length ∧
      st = if m.tail = wrap.tailOf m.text then .streamEnd else .errChecksum := by
  have hlast {pre : List Member} {n : Member} (heq : [m] = pre ++ [n]) : n = m := by
    simpa using (congrArg List.getLast? heq).symm
  have hcodes : (Member.codes [m]).length = m.code.length := by simp
  cases h with
  | checksum eq wrong =>
    obtain rfl := hlast eq
    exact ⟨hcodes, (if_neg wrong).symm⟩
  | ended eq right =>
    obtain rfl := hlast eq
    exact ⟨hcodes, (if_pos right).symm⟩
  | dropped _ _ _ junk_eq => cases junk_eq
  | held _ _ _ junk_eq => cases junk_eq
  | committed _ _ _ begins => exact absurd begins.length_le (by simp [gzipMagic])

/-- The caller of a decoder without limits, over one member: either a call starves the engine, which
is reported as invalid data, or none does and all of the text is given. -/
theorem member_cases (I : Inflates M.inflate Body)
    (hnew : decoderNew lookup opts = .ok ⟨deflateVtable M codec wrap, d⟩) {head tail : List UInt8}
    {c : Progressive UInt8} (hhead : wrap.ValidHead head) (hbody : Body c)
    (htail : tail.length = tailLength wrap) (hnone : d.opts.ceiling = none)
    (hratio : d.opts.maxRatio = 0) (hchunks : chunks.flatten = head ++ (c.code ++ tail))
    (ws : Windows) (room : ℕ) :
    (∃ f written, Reaches (feedTurn ws) (Feed.start d room chunks) f ∧ StarvedAt f ∧
      feedTurn ws f = .inr ⟨.errInvalidData, written⟩) ∨
    (∀ f, Reaches (feedTurn ws) (Feed.start d room chunks) f → ¬ StarvedAt f) ∧
      Returns (feedTurn ws) (Feed.start d room chunks)
        ⟨if tail = wrap.tailOf c.text then .streamEnd else .errChecksum, c.text⟩ := by
  let m : Member := ⟨head, c, tail⟩
  have hms : wrap.TailedStream Body d.opts.flags [m] [] := single_tailed hhead hbody htail
  have hcode : (tailedCoding [m] []).code = m.code := by simp [streamCoding]
  have hne : chunks ≠ [] := by
    rintro rfl
    have hpos : 0 < (head ++ (c.code ++ tail)).length := m.code_pos
    rw [← hchunks] at hpos
    simp at hpos
  have hwaits : holds [m] [] 0 = false := holds_of_le (Nat.zero_le _)
  have habove := DecoderOpts.above_unlimited hnone hratio (tailedCoding [m] []).text.length
  have hmax := DecoderOpts.maxOutput_unlimited hnone
  obtain ⟨f, p, q, hreach, hfollows, hcase⟩ := ClosingDecoder.feed_ends ws habove hmax
    (deflateClosing_start I hnew hms) hwaits (hchunks.trans hcode.symm) hne room
  rcases hcase with hfails | ⟨hnever, u, o, st, hend, hturn⟩
  · obtain ⟨written, hbad, -⟩ := ClosingDecoder.feedTurn_fails ws hmax hratio hfollows hfails
    exact .inl ⟨f, written, hreach, hfails, hbad⟩
  · refine .inr ⟨hnever, f, hreach, ?_⟩
    obtain ⟨hread, rfl⟩ := hend.ends.single
    -- nothing is left to be trailing
    have hrest : f.unread.length ≤ u := by
      have := congrArg List.length hfollows.rest
      rw [List.length_append, List.length_drop] at this
      change _ = (tailedCoding [m] []).code.length - p at this
      rw [hcode] at this
      omega
    have htext : (deflateClosing (M := M) I codec hms).coding.text = c.text := by
      simp [deflateClosing, deflateCourse, streamCoding, m, Member.text]
    have hsame : (m.tail = wrap.tailOf m.text) = (tail = wrap.tailOf c.text) := rfl
    rw [hturn, htext]
    simp only [hsame]
    split_ifs with hright
    · rw [d.opts.closing_unlimited hnone, if_neg (by simp [hrest])]
    · rw [DecoderOpts.closing_of_ne (by simp)]

/-- It is given the text, and hears whether the trailer is the text's, exactly if no call starves the
engine. -/
theorem member_ends (I : Inflates M.inflate Body)
    (hnew : decoderNew lookup opts = .ok ⟨deflateVtable M codec wrap, d⟩) {head tail : List UInt8}
    {c : Progressive UInt8} (hhead : wrap.ValidHead head) (hbody : Body c)
    (htail : tail.length = tailLength wrap) (hnone : d.opts.ceiling = none)
    (hratio : d.opts.maxRatio = 0) (hchunks : chunks.flatten = head ++ (c.code ++ tail))
    (ws : Windows) (room : ℕ) :
    Returns (feedTurn ws) (Feed.start d room chunks)
        ⟨if tail = wrap.tailOf c.text then .streamEnd else .errChecksum, c.text⟩ ↔
      ∀ f, Reaches (feedTurn ws) (Feed.start d room chunks) f → ¬ StarvedAt f := by
  rcases member_cases I hnew hhead hbody htail hnone hratio hchunks ws room with
    ⟨f, written, hreach, hstarved, hbad⟩ | ⟨hnever, hret⟩
  · refine ⟨fun hret => ?_, fun hnot => absurd hstarved (hnot f hreach)⟩
    have hst := congrArg FeedEnd.status (hret.unique ⟨f, hreach, hbad⟩)
    split_ifs at hst
  · exact ⟨fun _ => hnever, fun _ => hret⟩

/-! ## The round trip -/

theorem encodesBy_covered (D : M.deflate.Deflates Body)
    (hnew : encoderNew lookup' opts' = .ok ⟨deflateVtable M codec wrap, e⟩)
    (h : Encoding.EncodesBy Showable e x b) : Covered Body wrap (DeflateState.level e.state) x b := by
  obtain ⟨offered, s, buf, hs, hoffer, hsmall, hend, rfl, rfl⟩ := h
  have hrun : Encoding.SuppliedBy Uncut e offered s := hs.mono fun _ _ _ h => not_cuts_of_le h
  exact ((suppliedBy_writesOut (.start D hnew) hrun).endsWhole hoffer (not_cuts_of_le hsmall) hend).2

/-- Every encoding is a member of its payload, with a header that a decoder accepts. Every split
of it, to any windows, gives the payload back; with another trailer in its place it ends in
`ZU_ERR_CHECKSUM`. Both hold exactly as long as no call starves the engine. -/
theorem wrapper_roundTrip (D : M.deflate.Deflates Body) (I : Inflates M.inflate Body)
    (hencoder : encoderNew lookup' opts' = .ok ⟨deflateVtable M codec wrap, e⟩)
    (hdecoder : decoderNew lookup opts = .ok ⟨deflateVtable M codec wrap, d⟩)
    (hnone : d.opts.ceiling = none) (hratio : d.opts.maxRatio = 0)
    (h : Encoding.EncodesBy Showable e x b) :
    Covered Body wrap (DeflateState.level e.state) x b ∧
    wrap.ValidHead (wrap.headOf (DeflateState.level e.state)) ∧
    (∀ (ws : Windows) (room : ℕ) (chunks : List (List UInt8)), chunks.flatten = b →
      (Returns (feedTurn ws) (Feed.start d room chunks) ⟨.streamEnd, x⟩ ↔
        ∀ f, Reaches (feedTurn ws) (Feed.start d room chunks) f → ¬ StarvedAt f)) ∧
    ∀ (ws : Windows) (room : ℕ) (tail : List UInt8) (chunks : List (List UInt8)),
      tail.length = tailLength wrap → tail ≠ wrap.tailOf x →
      chunks.flatten = b.take (b.length - tailLength wrap) ++ tail →
        (Returns (feedTurn ws) (Feed.start d room chunks) ⟨.errChecksum, x⟩ ↔
          ∀ f, Reaches (feedTurn ws) (Feed.start d room chunks) f → ¬ StarvedAt f) := by
  have hcovered := encodesBy_covered D hencoder h
  have hhead := wrap.validHead_headOf (DeflateState.level e.state)
  obtain ⟨c, hbody, rfl, hcode⟩ := id hcovered
  have hlen : (wrap.tailOf c.text).length = tailLength wrap := wrap.length_tailOf c.text
  refine ⟨hcovered, hhead, fun ws room chunks hchunks => ?_,
    fun ws room tail chunks htail hother hchunks => ?_⟩
  · have hends := member_ends I hdecoder hhead hbody hlen hnone hratio (hchunks.trans hcode) ws room
    rw [if_pos rfl] at hends
    exact hends
  · have hsplit : b = wrap.headOf (DeflateState.level e.state) ++ c.code ++ wrap.tailOf c.text :=
      hcode.trans (List.append_assoc _ _ _).symm
    have hcode' : chunks.flatten = wrap.headOf (DeflateState.level e.state) ++ (c.code ++ tail) := by
      rw [hchunks, hsplit, List.length_append, hlen, Nat.add_sub_cancel, List.take_left,
        List.append_assoc]
    have hends := member_ends I hdecoder hhead hbody htail hnone hratio hcode' ws room
    rw [if_neg (show ¬ tail = wrap.tailOf c.text from hother)] at hends
    exact hends

/-! ## A body that outgrows the clamp -/

def bodyOf (c : Progressive UInt8) (x : List UInt8) : Option (Progressive UInt8) :=
  if x = c.text then some c else none

theorem bodyOf_eq {c c' : Progressive UInt8} {x : List UInt8} (h : bodyOf c x = some c') :
    x = c.text ∧ c' = c := by
  unfold bodyOf at h
  split_ifs at h with hx
  exact ⟨hx, (Option.some.inj h).symm⟩

abbrev pairMiniz (c : Progressive UInt8) : Miniz := ⟨refDeflate (bodyOf c), refInflate c⟩

/-- The reference compressor makes that body and no other. -/
def pairDeflates (c : Progressive UInt8) : (pairMiniz c).deflate.Deflates (· = c) :=
  (refDeflates fun _ _ h => by obtain ⟨rfl, rfl⟩ := bodyOf_eq h; rfl).imp
    fun _ ⟨_, h⟩ => (bodyOf_eq h).2

def pairDecoderOpts (wrap : WrapKind) : DecoderOpts :=
  { structSize := decoderOptsSize, codec := wrap.codecId, maxOutput := 0, maxRatio := 0
    flags := 0, expectedSize := 0 }

/-- A new decoder over the reference engines. -/
def pairDecoder (c : Progressive UInt8) (wrap : WrapKind) :
    Decoder (deflateVtable (pairMiniz c) wrap.codecId wrap) where
  state := {
    mz := ⟨0, 0, false⟩, mzCalled := false, encoder := false, wrap := wrap
    state := firstState wrap, level := mzDefaultLevel
    hdr := writeHdr wrap false mzDefaultLevel (List.replicate gzipHeaderLen 0)
    hdrLen := hdrLength wrap, hdrPos := 0, tail := List.replicate 8 0, tailLen := tailLength wrap
    tailPos := 0, checksum := checksumInit wrap, uncompressed := 0, gz := gzipHeaderInit
    decFlags := 0, probeMagic := false }
  opts := pairDecoderOpts wrap
  finished := false
  totalIn := 0
  totalOut := 0

theorem pairDecoder_new (c : Progressive UInt8) (wrap : WrapKind) :
    decoderNew (fun _ => some (deflateVtable (pairMiniz c) wrap.codecId wrap))
      (pairDecoderOpts wrap) = .ok ⟨_, pairDecoder c wrap⟩ := by
  have hcheck : checkDecOpts (pairDecoderOpts wrap) = .ok := by
    cases wrap <;> decide
  have hcan : (deflateVtable (pairMiniz c) wrap.codecId wrap).can canDecode = true := by
    show (canEncode ||| canDecode ||| canFlush) &&& canDecode != 0
    decide
  rw [decoderNew, if_neg (by simp [hcheck])]
  simp only [resolve, hcan, if_true]
  rfl

theorem pairDecoder_unlimited (c : Progressive UInt8) (wrap : WrapKind) :
    (pairDecoder c wrap).opts.ceiling = none := by
  simp [DecoderOpts.ceiling, DecoderOpts.hasExpected, pairDecoder, pairDecoderOpts]

/-- Its payload can be encoded, if three views of the engine hold it. -/
theorem pair_encodes (c : Progressive UInt8) (wrap : WrapKind)
    (hlen : c.text.length ≤ 3 * mzClamp) :
    ∃ b, Encoding.EncodesBy Showable (refEncoder (bodyOf c) (refInflate c) wrap) c.text b := by
  let e := refEncoder (bodyOf c) (refInflate c) wrap
  have hgathers : Gathers (bodyOf c) (Encoding.start e).enc.state (Encoding.start e).taken := by
    refine ⟨rfl, ?_, rfl⟩
    cases wrap
    · exact .inr rfl
    · exact .inl rfl
    · exact .inl rfl
  have hsplit : [c.text.take mzClamp, (c.text.drop mzClamp).take mzClamp].flatten ++
      c.text.drop (mzClamp + mzClamp) = c.text := by
    rw [List.flatten_cons, List.flatten_cons, List.flatten_nil, List.append_nil,
      List.append_assoc, ← List.drop_drop, List.take_append_drop, List.take_append_drop]
  have hbody : bodyOf c ([] ++ ([c.text.take mzClamp, (c.text.drop mzClamp).take mzClamp].flatten ++
      c.text.drop (mzClamp + mzClamp))) = some c := by
    rw [hsplit, List.nil_append, bodyOf, if_pos rfl]
  have hparts : ∀ part ∈ [c.text.take mzClamp, (c.text.drop mzClamp).take mzClamp],
      part.length ≤ mzClamp := by
    intro part hpart
    simp only [List.mem_cons, List.not_mem_nil, or_false] at hpart
    rcases hpart with rfl | rfl <;> exact List.length_take_le ..
  have hlast : (c.text.drop (mzClamp + mzClamp)).length ≤ mzClamp := by
    rw [List.length_drop]
    omega
  have hstart := WritesOut.start (pairDeflates c) (refEncoder_new (bodyOf c) (refInflate c) wrap)
  have hall := refDeflate_encodes hstart _ hparts hlast .new rfl hgathers hbody
  rwa [hsplit] at hall

/-- A payload of over 4 GiB of zero bytes, in stored blocks in one buffer, is not given back. -/
theorem roundTrip_starves :
    ¬ ∀ (M : Miniz) (Body : Progressive UInt8 → Prop) (_ : M.deflate.Deflates Body)
      (_ : Inflates M.inflate Body) (codec : CodecId) (wrap : WrapKind)
      (lookup : CodecId → Option CodecVtable) (opts : EncoderOpts) (opts' : DecoderOpts)
      (e : Encoder (deflateVtable M codec wrap)) (d : Decoder (deflateVtable M codec wrap)),
      encoderNew lookup opts = .ok ⟨deflateVtable M codec wrap, e⟩ →
      decoderNew lookup opts' = .ok ⟨deflateVtable M codec wrap, d⟩ →
      d.opts.ceiling = none → d.opts.maxRatio = 0 → ∀ x b, Encoding.EncodesBy Showable e x b →
        ∀ (ws : Windows) (room : ℕ) (chunks : List (List UInt8)), chunks.flatten = b →
          Returns (feedTurn ws) (Feed.start d room chunks) ⟨.streamEnd, x⟩ := by
  intro hall
  have hgrows := storedZeros_outgrows
  have hlen : (storedZeros 70000).text.length ≤ 3 * mzClamp := by
    rw [length_text_storedZeros]
    norm_num [mzClamp]
  generalize storedZeros 70000 = c at hgrows hlen
  obtain ⟨b, hb⟩ := pair_encodes c .gzip hlen
  have hnew := refEncoder_new (bodyOf c) (refInflate c) .gzip
  obtain ⟨c', hc', -, hcode⟩ := encodesBy_covered (pairDeflates c) hnew hb
  obtain rfl : c' = c := hc'
  have hret := hall (pairMiniz c') _ (pairDeflates c') (refInflates c') _ .gzip _ _ _ _ _ hnew
    (pairDecoder_new c' .gzip) (pairDecoder_unlimited ..) rfl _ b hb byteWindows c'.text.length [b] (by simp)
  have hflat : [b].flatten = gzipWriteHeader ++ (c'.code ++ WrapKind.gzip.tailOf c'.text) := by
    rw [List.flatten_singleton]
    exact hcode
  have I : Inflates (pairMiniz c').inflate (· = c') := refInflates c'
  have hends := member_ends I (pairDecoder_new c' .gzip) gzipWriteHeader_valid rfl
    (WrapKind.gzip.length_tailOf c'.text) (pairDecoder_unlimited ..) rfl hflat byteWindows c'.text.length
  rw [if_pos rfl] at hends
  refine hends.mp hret _ .refl ?_
  have hshown : StreamDecoder.shownWindow (pairDecoder c' .gzip) (.ofParts b c'.text.length) =
      ⟨b, c'.text.length, []⟩ := by
    rw [StreamDecoder.shownWindow, Decoder.allowance_none _ (pairDecoder_unlimited ..), Buffer.unread_ofParts,
      Buffer.availOut_ofParts]
  rw [StarvedAt, Feed.start, hshown, hcode]
  exact hgrows.starves (s := (pairDecoder c' .gzip).state) rfl rfl rfl rfl rfl rfl
    (WrapKind.gzip.tailOf c'.text)

/-- The letter `a` through zlib, one byte at a time. -/
theorem wrapper_roundTrip_letter :
    ∃ b, Encoding.EncodesBy Showable (refEncoder (bodyOf fixedA) (refInflate fixedA) .zlib) [0x61] b ∧
      Returns (feedTurn byteWindows) (Feed.start (pairDecoder fixedA .zlib) 1 (b.map fun y => [y]))
        ⟨.streamEnd, [0x61]⟩ := by
  obtain ⟨b, hb⟩ := pair_encodes fixedA .zlib (by simp [fixedA, mzClamp])
  refine ⟨b, hb, ?_⟩
  have hflat : (b.map fun y => [y]).flatten = b := by
    rw [← List.flatMap_def, List.flatMap_singleton']
  have hround := wrapper_roundTrip (pairDeflates fixedA) (refInflates fixedA)
    (refEncoder_new (bodyOf fixedA) (refInflate fixedA) .zlib) (pairDecoder_new fixedA .zlib) (pairDecoder_unlimited ..)
    rfl hb
  obtain ⟨c, rfl, -, hcode⟩ := hround.1
  have hhead := WrapKind.zlib.validHead_headOf
    (DeflateState.level (refEncoder (bodyOf fixedA) (refInflate fixedA) .zlib).state)
  have I : Inflates (pairMiniz fixedA).inflate (· = fixedA) := refInflates fixedA
  have hbytes : (b.map fun y => [y]).flatten = Member.codes [WrapKind.zlib.member
      (DeflateState.level (refEncoder (bodyOf fixedA) (refInflate fixedA) .zlib).state) fixedA] ++ [] := by
    rw [hflat, hcode]
    simp
  exact (hround.2.2.1 byteWindows 1 _ hflat).mpr fun f hf =>
    tailed_not_starvedAt I (pairDecoder_new fixedA .zlib)
      (single_tailed hhead rfl (WrapKind.zlib.length_tailOf _)) (pairDecoder_unlimited ..) rfl hbytes
      byteWindows 1 (by simp [mzClamp]) hf

end Zukomp
