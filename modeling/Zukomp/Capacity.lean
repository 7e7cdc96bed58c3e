import Zukomp.Block.Capacity
import Zukomp.Builtins
import Zukomp.Frames.Delivery

/-! # The capacity a one-shot decode needs

Without limits `zu_decompress_one` fills its destination with the stream's text in order, and
succeeds exactly where all of it fits. A bare LZ4 block that decodes to more than an `int`
counts is the one exception.
-/

namespace Zukomp

open Library

/-! ## The law -/

/-- What a one-shot decode of `text` answers over `cap` bytes, and what it has written. -/
structure CapacityLaw (text : List UInt8) (cap : ℕ) (r : Status × Buffer) : Prop where
  status : r.1 = if text.length ≤ cap then .ok else .errOutputLimit
  written : r.2.dstPos = min text.length cap
  bytes : r.2.stored = text.take r.2.dstPos

/-- No limit is set. -/
structure DecoderOpts.Unlimited (o : DecoderOpts) : Prop where
  maxOutput : o.maxOutput = 0
  maxRatio : o.maxRatio = 0
  hasExpected : o.hasExpected = false

theorem DecoderOpts.Unlimited.ceiling {o : DecoderOpts} (h : o.Unlimited) : o.ceiling = none := by
  unfold DecoderOpts.ceiling
  rw [if_neg (by simp [h.hasExpected]), if_neg (by simp [h.maxOutput])]

/-- A decoder that keeps the contract obeys the law on a stream that it does not give up on. -/
theorem StreamDecoder.capacity {v : CodecVtable} {c : Coding UInt8} (k : StreamDecoder v c)
    {d : Decoder v} (h : k.Standing d false 0 0) (hopts : d.opts.Unlimited) {dst : Option ℕ}
    {cap : ℕ} (hdst : dst.isNone → cap = 0)
    (hfails : ¬ k.Fails d.state (shownWindow d (oneShotBuffer c.code dst cap)) .finish) :
    CapacityLaw c.text cap
      (oneShot (fun d buf => decoderProcess d buf .finish) d c.code dst cap) := by
  obtain ⟨st, buf, hr, hpos, hle, hwrites, hend⟩ := k.oneShot_end h hdst hfails
  have hprefix : buf.stored = c.text.take buf.stored.length := hwrites.eq_take
  rw [hr]
  cases hend with
  | ended text size =>
    have hlen := congrArg List.length text
    refine ⟨?_, ?_, ?_⟩
    · rw [if_pos (by omega)]
    · change buf.dstPos = _
      omega
    · change buf.stored = c.text.take buf.dstPos
      rw [hpos]
      exact hprefix
  | missized text expected size => simp [hopts.hasExpected] at expected
  | full noRoom owing =>
    refine ⟨?_, ?_, ?_⟩
    · rw [if_neg (by omega)]
    · change buf.dstPos = _
      omega
    · change buf.stored = c.text.take buf.dstPos
      rw [hpos]
      exact hprefix
  | capped ceiling spent owing => simp [hopts.ceiling] at ceiling

/-! ## The identity codec -/

/-- Every source is a stream of the identity codec. -/
def identityStream (x : List UInt8) : StreamDecoder identityCodec ⟨x, x⟩ where
  process := identityProcess
  lifted := identityCodec_decodes
  At _ _ p q := p = q ∧ p ≤ x.length
  Stall _ := False
  Fails _ _ _ := False
  Idles := True
  answers {s last p q w mode} h _ _ hshows := by
    refine Answer.keepsPlace ?_
    obtain ⟨rfl, hp⟩ := h
    have hlen := hshows.length_le
    have hmoved := identityProcess_moved w mode
    have hwrites : Coding.Writes ⟨x, x⟩ p (w.input.take (min w.input.length w.room)) :=
      (List.take_prefix _ _).trans hshows.next
    have htaken : (w.input.take (min w.input.length w.room)).length =
        min w.input.length w.room := by simp
    dsimp only at hlen
    change Answer _ _ _ _ _ _ _ _ (if w.input.drop (min w.input.length w.room) ≠ [] then
      .needOutput else if mode = .finish then .streamEnd else .needInput, (), _)
    by_cases hleft : w.input.drop (min w.input.length w.room) ≠ []
    · rw [if_pos hleft]
      have hroom : w.room < w.input.length := by
        by_contra hle
        exact hleft (by rw [Nat.min_eq_left (Nat.not_lt.mp hle), List.drop_length])
      refine .full hmoved hwrites ⟨by rw [htaken], by omega⟩ ?_ (.inl ?_)
      · simp only [Window.put_room, Window.take_room, htaken]
        omega
      · rw [htaken]
        dsimp only
        omega
    · rw [if_neg hleft]
      have hdrop : w.input.drop (min w.input.length w.room) = [] := not_not.mp hleft
      have hall : w.input.length ≤ w.room := by
        have := congrArg List.length hdrop
        simp only [List.length_drop, List.length_nil] at this
        omega
      by_cases hmode : mode = .finish
      · rw [if_pos hmode]
        have hrest := congrArg List.length (hshows.all hmode)
        simp only [List.length_drop] at hrest
        refine .ended hmoved hwrites ?_ ?_
        · dsimp only
          omega
        · rw [htaken]
          dsimp only
          omega
      · rw [if_neg hmode]
        exact .hungry hmoved hwrites ⟨by rw [htaken], by omega⟩ (beq_eq_false_iff_ne.mpr hmode)
          hdrop False.elim
  fails _ _ _ _ := False.elim
  bounds h := ⟨h.2, h.1 ▸ h.2⟩
  stall_lt := False.elim

/-! ## The built-in codecs -/

namespace Libraries

/-- A miniz that decodes the valid bodies. -/
structure Inflating (E : MzStream) where
  Body : Progressive UInt8 → Prop
  inflates : Inflates E Body

/-- A libzstd that decodes the valid frames. `Frame W` are those that ask for a window of at most `W`
bytes. -/
structure ZstdReading (Z : Zstd) where
  Frame : ℕ → Coding UInt8 → Prop
  reads : ∀ log, ZstdReads Z log (Frame (2 ^ log))

structure Lz4fReading (F : Lz4f) where
  Frame : Coding UInt8 → Prop
  reads : Lz4fReads F Frame

/-- A codec's own library decodes what its format calls valid. -/
def Decodes (K : Libraries) : Builtin → Type
  | .identity => Unit
  | .deflateRaw | .zlib | .gzip => Inflating K.miniz.inflate
  | .zstd => ZstdReading K.zstd
  | .lz4Frame => Lz4fReading K.lz4f
  | .lz4Block => Lz4Blocks K.lz4

variable {K : Libraries}

/-- The valid complete streams of a codec under an output limit, with what they decode to. -/
def Decodes.Stream : {b : Builtin} → K.Decodes b → UInt64 → UInt32 → Coding UInt8 → Prop
  | .identity, _, _, _, c => c.text = c.code
  | .deflateRaw, D, _, decFlags, c =>
    ∃ ms, WrapKind.none.ValidStream D.Body decFlags ms ∧ c = streamCoding ms
  | .zlib, D, _, decFlags, c =>
    ∃ ms, WrapKind.zlib.ValidStream D.Body decFlags ms ∧ c = streamCoding ms
  | .gzip, D, _, decFlags, c =>
    ∃ ms, WrapKind.gzip.ValidStream D.Body decFlags ms ∧ c = streamCoding ms
  | .zstd, D, maxOutput, decFlags, c =>
    ∃ fs, FramesKind.zstd.ValidFrames (D.Frame (2 ^ zstdWindowLog maxOutput)) decFlags fs ∧
      c = framesCoding fs []
  | .lz4Frame, D, _, decFlags, c =>
    ∃ fs, FramesKind.lz4.ValidFrames D.Frame decFlags fs ∧ c = framesCoding fs []
  | .lz4Block, D, _, _, c => D.Block c.code c.text

end Libraries

section Deflate

variable {M : Miniz} {Valid : Progressive UInt8 → Prop} {codec : CodecId} {wrap : WrapKind}
  {lookup : CodecId → Option CodecVtable} {opts : DecoderOpts}
  {d : Decoder (deflateVtable M codec wrap)} {ms : List Member} {dst : Option ℕ} {cap : ℕ}

theorem deflate_capacity (I : Inflates M.inflate Valid)
    (hnew : decoderNew lookup opts = .ok ⟨deflateVtable M codec wrap, d⟩)
    (hms : wrap.ValidStream Valid d.opts.flags ms) (hopts : d.opts.Unlimited)
    (hdst : dst.isNone → cap = 0) (hlen : (streamCoding ms).code.length ≤ mzClamp) :
    CapacityLaw (streamCoding ms).text cap
      (oneShot (fun d buf => decoderProcess d buf .finish) d (streamCoding ms).code dst cap) := by
  refine (deflateDecoder I codec hms).capacity (deflateDecoder_start I hnew hms hopts.maxRatio)
    hopts hdst ?_
  rintro ⟨y, hreach, -, -, -, hclamp, -⟩
  have hview := deflateStep_reaches_le hreach
  simp only [StreamDecoder.shownWindow, unread_oneShotBuffer] at hview
  omega

end Deflate

/-- The reference libraries decode the streams that they know. -/
def Libraries.refDecodes : (b : Builtin) → Libraries.ref.Decodes b
  | .identity => ()
  | .deflateRaw | .zlib | .gzip => ⟨(· = fixedA), refInflates fixedA⟩
  | .zstd => ⟨fun _ => Unframed (· = zstdA), fun log => (refZstdUnframes zstdA log).zstdReads⟩
  | .lz4Frame => ⟨Unframed (· = lz4fA), (refLz4fUnframes lz4fA).lz4fReads⟩
  | .lz4Block => refLz4Blocks

/-- Without limits a one-shot decode of a valid stream of at most `LZ4_MAX_INPUT_SIZE` bytes
obeys the law, for lz4-block where the text is no longer than an `int` counts. -/
theorem decompressOne_capacity {K : Libraries} {b : Builtin} (D : K.Decodes b)
    {lookup : CodecId → Option CodecVtable} {opts : DecoderOpts} {d : Decoder (K.codec b)}
    (hnew : decoderNew lookup opts = .ok ⟨K.codec b, d⟩) (hopts : d.opts.Unlimited)
    {c : Coding UInt8} (hc : D.Stream d.opts.maxOutput d.opts.flags c)
    (hlen : c.code.length ≤ lz4MaxInputSize)
    (hint : b = .lz4Block → c.text.length ≤ intMax) {dst : Option ℕ} {cap : ℕ}
    (hdst : dst.isNone → cap = 0) :
    CapacityLaw c.text cap (decompressOne lookup opts c.code dst cap) := by
  rw [decompressOne_eq hnew hdst]
  have hclamp : c.code.length ≤ mzClamp := hlen.trans (by norm_num [lz4MaxInputSize, mzClamp])
  have hword : c.code.length < wordSize := hlen.trans_lt (by norm_num [lz4MaxInputSize, wordSize])
  cases b with
  | identity =>
    obtain ⟨x, y⟩ := c
    obtain rfl : y = x := hc
    refine (identityStream y).capacity ?_ hopts hdst id
    exact StreamDecoder.standing_new _ hnew hopts.maxRatio ⟨rfl, Nat.zero_le _⟩
  | deflateRaw =>
    obtain ⟨ms, h, rfl⟩ := hc
    exact deflate_capacity (Libraries.Inflating.inflates D) hnew h hopts hdst hclamp
  | zlib =>
    obtain ⟨ms, h, rfl⟩ := hc
    exact deflate_capacity (Libraries.Inflating.inflates D) hnew h hopts hdst hclamp
  | gzip =>
    obtain ⟨ms, h, rfl⟩ := hc
    exact deflate_capacity (Libraries.Inflating.inflates D) hnew h hopts hdst hclamp
  | zstd =>
    obtain ⟨fs, h, rfl⟩ := hc
    have I := Libraries.ZstdReading.reads D (zstdWindowLog d.opts.maxOutput)
    exact (zstdStream I.toReadsFrames h).capacity (zstdStream_start I hnew hopts.maxRatio h) hopts
      hdst id
  | lz4Frame =>
    obtain ⟨fs, h, rfl⟩ := hc
    have I := Libraries.Lz4fReading.reads D
    exact (lz4fStream I.toReadsFrames h).capacity (lz4fStream_start I hnew hopts.maxRatio h) hopts
      hdst id
  | lz4Block =>
    have h : Lz4Blocks.Block D c.code c.text := hc
    have hstart : (lz4BlockDecoder D h (hint rfl) hword).Standing d false 0 0 :=
      lz4BlockDecoder_standing hnew hopts.maxOutput hopts.maxRatio
        (by simp [hopts.hasExpected])
    refine (lz4BlockDecoder D h (hint rfl) hword).capacity hstart hopts hdst ?_
    rintro ⟨-, hover⟩
    have hinput : Lz4bState.input d.state = [] := by
      obtain ⟨-, hstate⟩ := decoderNew_ok hnew
      rw [← Except.ok.inj hstate]
      rfl
    simp only [StreamDecoder.shownWindow, unread_oneShotBuffer, hinput, List.length_nil,
      Nat.zero_add] at hover
    omega

def tallDecoder : Decoder (lz4BlockCodec (runLz4 8421505)) where
  state := lz4bNew false levelDefault (some blockOpts)
  opts := blockOpts
  finished := false
  totalIn := 0
  totalOut := 0

/-- A block of 8421516 bytes that decodes to 2147483800. -/
theorem decompressOne_tall :
    ¬ ∀ (K : Libraries) (b : Builtin) (D : K.Decodes b) (lookup : CodecId → Option CodecVtable)
      (opts : DecoderOpts) (d : Decoder (K.codec b))
      (_ : decoderNew lookup opts = .ok ⟨K.codec b, d⟩) (_ : d.opts.Unlimited)
      (c : Coding UInt8) (_ : D.Stream d.opts.maxOutput d.opts.flags c)
      (_ : c.code.length ≤ lz4MaxInputSize) (dst : Option ℕ) (cap : ℕ)
      (_ : dst.isNone → cap = 0),
      CapacityLaw c.text cap (decompressOne lookup opts c.code dst cap) := by
  intro hall
  have hlen : (runBlock 8421505).length ≤ lz4MaxInputSize := by
    rw [length_runBlock]
    norm_num [lz4MaxInputSize]
  have hlong : intMax < (runText 8421505).length := by
    rw [length_runText]
    norm_num [intMax]
  have hblock : (runLz4Blocks 8421505).Block (runBlock 8421505) (runText 8421505) :=
    .inl ⟨rfl, rfl⟩
  have hnew : decoderNew (fun _ => some (lz4BlockCodec (runLz4 8421505))) blockOpts =
      .ok ⟨lz4BlockCodec (runLz4 8421505), tallDecoder⟩ := rfl
  have hdst : (some 0 : Option ℕ).isNone → (runText 8421505).length = 0 := by simp
  have hlaw := hall { Libraries.ref with lz4 := runLz4 8421505 } .lz4Block (runLz4Blocks 8421505) _
    blockOpts tallDecoder hnew ⟨rfl, rfl, by decide⟩ ⟨runBlock 8421505, runText 8421505⟩ hblock hlen (some 0) (runText 8421505).length hdst
  -- the codec takes the block for corrupt
  have herr : (decoderProcess tallDecoder
      (oneShotBuffer (runBlock 8421505) (some 0) (runText 8421505).length) .finish).1.isError := by
    have hinput := unread_oneShotBuffer (runBlock 8421505) (some 0) (runText 8421505).length
    have hdata : (lz4bDecoderProcess (runLz4 8421505) tallDecoder.state
        (StreamDecoder.shownWindow tallDecoder (oneShotBuffer (runBlock 8421505) (some 0)
          (runText 8421505).length)) .finish).1 = .errInvalidData :=
      lz4bDecoder_long (runLz4Blocks 8421505) hblock hlen hlong rfl (by decide) hinput
    rcases hr : lz4bDecoderProcess (runLz4 8421505) tallDecoder.state
      (StreamDecoder.shownWindow tallDecoder (oneShotBuffer (runBlock 8421505) (some 0)
        (runText 8421505).length)) .finish with ⟨st, s, w⟩
    rw [hr] at hdata
    cases hdata
    exact decoderProcess_isError rfl (checkBuffer_oneShot hdst _) rfl (by simp) hr rfl
  have hbad : (oneShot (fun d buf => decoderProcess d buf .finish) tallDecoder (runBlock 8421505)
      (some 0) (runText 8421505).length).1.isError := oneShot_isError herr
  have hstatus := hlaw.status
  rw [if_pos le_rfl, decompressOne_eq hnew hdst] at hstatus
  rw [hstatus] at hbad
  cases hbad

/-- One byte of room for the two letters of a run. -/
theorem decompressOne_capacity_letters :
    CapacityLaw [0x61, 0x62] 1
      (decompressOne lz4BlockOnly blockOpts [0x20, 0x61, 0x62] (some 0) 1) :=
  decompressOne_capacity (Libraries.refDecodes .lz4Block) blockDecoder_new ⟨rfl, rfl, by decide⟩
    (c := ⟨[0x20, 0x61, 0x62], [0x61, 0x62]⟩) rfl (by decide) (fun _ => by decide) nofun

end Zukomp
