import Zukomp.Core.OneShot
import Zukomp.Deflate.Streaming

/-! # What the family delivers, split as the caller likes

Every caller of a valid stream is given its text, up to two defects. Under an exact
ceiling a `ZU_RUN` buffer that ends between the last text and the end of the body is
refused as over the ceiling. And under `ZU_FINISH` the engine may take the clamp on its
input for the end of the stream.
-/

namespace Zukomp

open Library

variable {M : Miniz} {Valid : Progressive UInt8 → Prop} {codec : CodecId} {wrap : WrapKind}
  {lookup : CodecId → Option CodecVtable} {opts : DecoderOpts}
  {d : Decoder (deflateVtable M codec wrap)} {ms : List Member}

/-- A new decoder is at the start of any stream. -/
theorem deflateNew_at {E : MzStream} (I : Inflates E Valid) {decFlags : UInt32}
    {junk : List UInt8} (hms : wrap.TailedStream Valid decFlags ms junk) {s : DeflateState E}
    (hnew : deflateNew E wrap false levelDefault decFlags = .ok s) :
    DeflateAt I wrap decFlags ms junk s false 0 0 := by
  obtain ⟨m, post, rfl⟩ := List.exists_cons_of_ne_nil hms.nonempty
  have hsplit : Split wrap Valid decFlags (m :: post) junk [] m post := ⟨hms, rfl⟩
  obtain ⟨hok, hfresh⟩ := I.init mzDefaultLevel
  unfold deflateNew at hnew
  simp only [if_pos] at hnew
  rcases hr : E.init mzDefaultLevel with ⟨st, mz⟩
  rw [hr] at hok hnew hfresh
  obtain rfl : st = .ok := hok
  obtain rfl := Except.ok.inj hnew
  rw [← Nat.add_zero 0]
  refine hsplit.at_ ⟨rfl, rfl, rfl, rfl, rfl, rfl, ?_⟩ ?_
  · cases wrap <;> simp [writeHdr, gzipHeaderLen]
  cases wrap with
  | none =>
    have hhead : m.head = [] := hsplit.head
    have h (s : DeflateState E) (hs : s.state = .body) (henc : FreshEngine I s)
        (hsum : Summed s []) (hp : s.probeMagic = false) : Phase I s false m post junk 0 0 := by
      have hbody : Phase I s false m post junk m.head.length 0 :=
        enter_body hs henc hsum hp hsplit.body
      rwa [hhead] at hbody
    exact h _ rfl ⟨rfl, hfresh⟩ (fun hne => absurd rfl hne) rfl
  | zlib =>
    exact .zlibHeader rfl rfl rfl ⟨rfl, hfresh⟩ (fun _ => ⟨checksumInit_eq .zlib, rfl⟩)
      (Nat.zero_le _) rfl
  | gzip =>
    obtain ⟨g, hg⟩ := hsplit.head
    obtain ⟨tail, hhead, htail⟩ := hsplit.next_head
    refine .gzipHeader rfl rfl rfl ⟨rfl, hfresh⟩ (fun _ => ⟨checksumInit_eq .gzip, rfl⟩)
      (by simp [hhead]) ?_
    rw [List.drop_zero, hg]
    exact g.awaits_bytes

theorem deflateDecoder_start (I : Inflates M.inflate Valid)
    (hnew : decoderNew lookup opts = .ok ⟨deflateVtable M codec wrap, d⟩)
    (hms : wrap.ValidStream Valid d.opts.flags ms) (hratio : d.opts.maxRatio = 0) :
    (deflateDecoder I codec hms).Standing d false 0 0 := by
  obtain ⟨hfin, -, hout⟩ := decoderNew_fresh hnew
  obtain ⟨-, hstate⟩ := decoderNew_ok hnew
  refine ⟨deflateNew_at I hms.tailed hstate, hfin, hratio, fun C status _ => ?_⟩
  rw [hout]
  exact ⟨rfl, Nat.zero_le _⟩

theorem deflateClosing_start (I : Inflates M.inflate Valid)
    (hnew : decoderNew lookup opts = .ok ⟨deflateVtable M codec wrap, d⟩) {junk : List UInt8}
    (hms : wrap.TailedStream Valid d.opts.flags ms junk) :
    (deflateClosing I codec hms).Open d.opts d false 0 0 := by
  obtain ⟨hfin, -, hout⟩ := decoderNew_fresh hnew
  obtain ⟨-, hstate⟩ := decoderNew_ok hnew
  refine ⟨deflateNew_at I hms hstate, hfin, rfl, fun C status _ => ?_⟩
  rw [hout]
  rfl

/-- The engine is starved in the call the caller is about to make. -/
def StarvedAt (f : Feed (deflateVtable M codec wrap)) : Prop :=
  Starves f.dec.state (StreamDecoder.shownWindow f.dec (.ofParts f.unread f.room)) f.mode

/-- It is never starved in a buffer that fits its input. -/
theorem StarvedAt.long {f : Feed (deflateVtable M codec wrap)} (h : StarvedAt f) :
    mzClamp < f.unread.length := by
  obtain ⟨y, hreach, -, -, -, hclamp, -⟩ := h
  have hview := deflateStep_reaches_le hreach
  simp only [StreamDecoder.shownWindow, Buffer.unread_ofParts] at hview
  omega

/-- A text of `D` bytes is as long as a ceiling allows: the output limit, or the expected
size below it. -/
def DecoderOpts.MeetsExactly (o : DecoderOpts) (D : ℕ) : Prop :=
  o.maxOutput.toNat = D ∨
    o.hasExpected ∧ o.expectedSize.toNat = D ∧ (o.maxOutput = 0 ∨ D ≤ o.maxOutput.toNat)

theorem DecoderOpts.MeetsExactly.ceiling {o : DecoderOpts} {D : ℕ} (h : o.MeetsExactly D)
    (hexp : o.hasExpected → o.expectedSize.toNat = D) {C : UInt64} {status : Status}
    (hc : o.ceiling = some (C, status)) : C.toNat = D := by
  unfold DecoderOpts.ceiling at hc
  split_ifs at hc with h1 h2
  · obtain ⟨rfl, -⟩ := Prod.mk.inj (Option.some.inj hc)
    exact hexp h1.1
  · obtain ⟨rfl, -⟩ := Prod.mk.inj (Option.some.inj hc)
    rcases h with hmax | ⟨he, hsize, hle⟩
    · exact hmax
    · refine absurd ⟨he, ?_⟩ h1
      rcases hle with hzero | hle
      · exact .inl hzero
      · exact .inr (by rw [UInt64.le_iff_toNat_le, hsize]; exact hle)

/-! ## Two bodies -/

/-- The letter `a` under the fixed Huffman code: its last byte holds only the end of the
block. -/
def fixedA : Progressive UInt8 where
  code := [0x4B, 0x04, 0x00]
  text := [0x61]
  ready p := if p < 2 then 0 else 1
  ready_mono a b h := by
    dsimp only
    split_ifs <;> omega
  ready_full := by simp
  code_ne := by simp

def zeroBlock : List UInt8 := [0x00, 0xFF, 0xFF, 0x00, 0x00] ++ List.replicate 65535 0

theorem length_zeroBlock : zeroBlock.length = 65540 := by
  rw [zeroBlock, List.length_append, List.length_replicate]
  rfl

/-- `n` such blocks and an empty last one. -/
def storedZeros (n : ℕ) : Progressive UInt8 where
  code := (List.replicate n zeroBlock).flatten ++ [0x01, 0x00, 0x00, 0xFF, 0xFF]
  text := List.replicate (n * 65535) 0
  ready p := p / 65540 * 65535 + (p % 65540 - 5)
  ready_mono a b h := by
    dsimp only
    omega
  ready_full := by
    simp only [List.length_append, List.length_flatten, List.map_replicate, List.sum_replicate,
      List.length_replicate, List.length_cons, List.length_nil, smul_eq_mul, length_zeroBlock]
    omega
  code_ne := List.append_ne_nil_of_right_ne_nil _ (by simp)

def refMiniz (c : Progressive UInt8) : Miniz := ⟨refInflate c, refInflate c⟩

def rawStream (c : Progressive UInt8) : List Member := [⟨[], c, []⟩]

theorem rawStream_valid (c : Progressive UInt8) (decFlags : UInt32) :
    WrapKind.none.ValidStream (· = c) decFlags (rawStream c) where
  members m hm := by
    obtain rfl := List.mem_singleton.mp hm
    exact ⟨rfl, rfl, rfl⟩
  nonempty := by simp [rawStream]
  single _ := rfl

def rawOnly (c : Progressive UInt8) : CodecId → Option CodecVtable :=
  fun _ => some (deflateRawCodec (refMiniz c))

def rawOpts (maxOutput : UInt64) : DecoderOpts :=
  { structSize := decoderOptsSize, codec := codecDeflateRaw, maxOutput := maxOutput, maxRatio := 0
    flags := 0, expectedSize := 0 }

theorem rawOpts_unlimited : (rawOpts 0).ceiling = none := by decide

/-- A new raw decoder over the reference engine. -/
def rawDecoder (c : Progressive UInt8) (maxOutput : UInt64) :
    Decoder (deflateVtable (refMiniz c) codecDeflateRaw .none) where
  state := {
    mz := ⟨0, 0, false⟩, mzCalled := false, encoder := false, wrap := .none, state := .body
    level := mzDefaultLevel, hdr := List.replicate gzipHeaderLen 0, hdrLen := 0, hdrPos := 0
    tail := List.replicate 8 0, tailLen := 0, tailPos := 0, checksum := 1, uncompressed := 0
    gz := gzipHeaderInit, decFlags := 0, probeMagic := false }
  opts := rawOpts maxOutput
  finished := false
  totalIn := 0
  totalOut := 0

theorem rawDecoder_new (c : Progressive UInt8) (maxOutput : UInt64) :
    decoderNew (rawOnly c) (rawOpts maxOutput) =
      .ok ⟨deflateVtable (refMiniz c) codecDeflateRaw .none, rawDecoder c maxOutput⟩ := by
  have hsize : ¬ decoderOptsSize < decoderOptsRequiredSize := by decide
  have hcheck : checkDecOpts (rawOpts maxOutput) = .ok := by
    simp [checkDecOpts, rawOpts, DecoderOpts.hasExpected, hsize]
  have hcan : (deflateRawCodec (refMiniz c)).can canDecode = true := by
    show (canEncode ||| canDecode ||| canFlush) &&& canDecode != 0
    decide
  rw [decoderNew, if_neg (by simp [hcheck])]
  simp only [resolve, rawOnly, hcan, if_true]
  rfl

section Callers

variable {chunks : List (List UInt8)}

theorem chunks_ne_nil (hms : wrap.ValidStream Valid d.opts.flags ms)
    (hchunks : chunks.flatten = Member.codes ms) : chunks ≠ [] := by
  rintro rfl
  exact Member.codes_ne_nil hms.nonempty hchunks.symm

/-- In buffers that fit the engine's input the clamp hides nothing. -/
theorem not_starvedAt_of_small (I : Inflates M.inflate Valid)
    (hnew : decoderNew lookup opts = .ok ⟨deflateVtable M codec wrap, d⟩)
    (hms : wrap.ValidStream Valid d.opts.flags ms) (hratio : d.opts.maxRatio = 0)
    (hchunks : chunks.flatten = Member.codes ms) (ws : Windows) (room : ℕ)
    (hsmall : ∀ chunk ∈ chunks, chunk.length ≤ mzClamp)
    {f : Feed (deflateVtable M codec wrap)}
    (hf : Reaches (feedTurn ws) (Feed.start d room chunks) f) : ¬ StarvedAt f := by
  have hstart := deflateDecoder_start I hnew hms hratio
  obtain ⟨p, q, hfed⟩ := StreamDecoder.Fed.reaches ws hchunks
    ⟨_, _, StreamDecoder.fed_start trivial hstart hchunks (chunks_ne_nil hms hchunks) room⟩ hf
  obtain ⟨chunk, hmem, hle⟩ := hfed.unread_le hchunks
  intro hst
  have := hsmall chunk hmem
  have := hst.long
  omega

/-- A caller with a fresh window for every full one is given the text up to an exact ceiling
exactly when no `ZU_RUN` buffer ends where the text waits for the rest of the body, and the
engine is not starved. -/
theorem exactCeiling_reached (I : Inflates M.inflate Valid)
    (hnew : decoderNew lookup opts = .ok ⟨deflateVtable M codec wrap, d⟩)
    (hms : wrap.ValidStream Valid d.opts.flags ms) (hratio : d.opts.maxRatio = 0)
    (hexact : d.opts.MeetsExactly (Member.texts ms).length)
    (hchunks : chunks.flatten = Member.codes ms) (ws : Windows)
    (hws : ∀ n, ws.refill n = false) (room : ℕ) :
    Returns (feedTurn ws) (Feed.start d room chunks) ⟨.streamEnd, Member.texts ms⟩ ↔
      (d.opts.hasExpected → d.opts.expectedSize.toNat = (Member.texts ms).length) ∧
      (d.opts.ceiling.isSome → ∀ p, Boundary chunks p → ¬ TextReady ms p) ∧
      ∀ f, Reaches (feedTurn ws) (Feed.start d room chunks) f → ¬ StarvedAt f := by
  have hstart := deflateDecoder_start I hnew hms hratio
  have hne := chunks_ne_nil hms hchunks
  constructor
  · intro hend
    have hstarved (f : Feed (deflateVtable M codec wrap))
        (hf : Reaches (feedTurn ws) (Feed.start d room chunks) f) : ¬ StarvedAt f := by
      intro hst
      obtain ⟨r, hr, herr⟩ := StreamDecoder.feed_fails ws trivial hstart hchunks hne hf hst
      rw [hr.unique hend] at herr
      cases herr
    obtain ⟨r, hr, hfair⟩ := StreamDecoder.feed_fair ws trivial hstart hchunks hne room hstarved
    obtain rfl := hr.unique hend
    have hexp := (hfair.streamEnd rfl).2
    refine ⟨hexp, fun hsome p hb hstall => ?_, hstarved⟩
    obtain ⟨⟨C, status⟩, hc⟩ := Option.isSome_iff_exists.mp hsome
    exact StreamDecoder.feed_stalled ws hws trivial hstart hchunks hne room hc (hexact.ceiling hexp hc)
      ⟨p, hb, hstall⟩ hend rfl
  · rintro ⟨hexp, hready, hstarved⟩
    obtain ⟨r, hr, hfair⟩ := StreamDecoder.feed_fair ws trivial hstart hchunks hne room hstarved
    cases hfair with
    | ended size within => exact hr
    | missized expected size within => exact absurd (hexp expected) size
    | @capped C status written ceiling spent writes owing =>
      have hC := hexact.ceiling hexp ceiling
      rcases owing with hlt | ⟨-, p, hb, hstall⟩
      · simp only [streamCoding] at hlt
        omega
      · exact absurd hstall (hready (by simp [ceiling]) p hb)

/-- A buffer that ends before the end of the block, under a limit of the one byte it
decodes to, is refused. -/
theorem exactCeiling_missed :
    ¬ ∀ (M : Miniz) (Valid : Progressive UInt8 → Prop) (_ : Inflates M.inflate Valid)
      (codec : CodecId) (wrap : WrapKind) (lookup : CodecId → Option CodecVtable)
      (opts : DecoderOpts) (d : Decoder (deflateVtable M codec wrap))
      (_ : decoderNew lookup opts = .ok ⟨deflateVtable M codec wrap, d⟩) (ms : List Member)
      (_ : wrap.ValidStream Valid d.opts.flags ms) (_ : d.opts.maxRatio = 0)
      (_ : d.opts.hasExpected = false) (_ : d.opts.MeetsExactly (Member.texts ms).length)
      (chunks : List (List UInt8)) (_ : chunks.flatten = Member.codes ms) (ws : Windows)
      (_ : ∀ n, ws.refill n = false) (room : ℕ) (_ : 0 < room),
      Returns (feedTurn ws) (Feed.start d room chunks) ⟨.streamEnd, Member.texts ms⟩ := by
  intro hall
  have hvalid := rawStream_valid fixedA 0
  have hcode : [[0x4B, 0x04], [0x00]].flatten = Member.codes (rawStream fixedA) := rfl
  have hend := hall (refMiniz fixedA) _ (refInflates fixedA) _ _ _ _ _ (rawDecoder_new fixedA 1) _
    hvalid rfl (by decide) (.inl rfl) _ hcode byteWindows (fun _ => rfl) 8 (by norm_num)
  have hstart := deflateDecoder_start (refInflates fixedA) (rawDecoder_new fixedA 1) hvalid rfl
  have hceil : (rawDecoder fixedA 1).opts.ceiling = some (1, .errOutputLimit) := by decide
  have hboundary : Boundary [[0x4B, 0x04], [0x00]] 2 := ⟨1, le_rfl, by simp, rfl⟩
  have hready : TextReady (rawStream fixedA) 2 := ⟨by decide, by decide, rfl, rfl⟩
  exact StreamDecoder.feed_stalled byteWindows (fun _ => rfl) trivial hstart hcode (by simp) 8 hceil rfl
    ⟨2, hboundary, hready⟩ hend rfl

/-- The whole code in one buffer decodes, one byte at a time. -/
theorem exactCeiling_reached_fixedA :
    Returns (feedTurn byteWindows) (Feed.start (rawDecoder fixedA 1) 1 [fixedA.code])
      ⟨.streamEnd, [0x61]⟩ := by
  have hvalid := rawStream_valid fixedA 0
  have hcode : [fixedA.code].flatten = Member.codes (rawStream fixedA) := rfl
  refine (exactCeiling_reached (refInflates fixedA) (rawDecoder_new fixedA 1) hvalid rfl (.inl rfl)
    hcode byteWindows (fun _ => rfl) 1).mpr ⟨by decide, fun _ p hb => ?_, fun f hf => ?_⟩
  · obtain ⟨i, h1, hi, -⟩ := hb
    simp only [List.length_singleton] at hi
    omega
  · exact not_starvedAt_of_small (refInflates fixedA) (rawDecoder_new fixedA 1) hvalid rfl hcode
      byteWindows 1 (by simp [fixedA, mzClamp]) hf

/-- Without limits every caller is given the text exactly when its engine is not starved,
and it never is in buffers below 2 GiB. -/
theorem clamp_visible (I : Inflates M.inflate Valid)
    (hnew : decoderNew lookup opts = .ok ⟨deflateVtable M codec wrap, d⟩)
    (hms : wrap.ValidStream Valid d.opts.flags ms) (hratio : d.opts.maxRatio = 0)
    (hnone : d.opts.ceiling = none) (hchunks : chunks.flatten = Member.codes ms) (ws : Windows)
    (room : ℕ) :
    (Returns (feedTurn ws) (Feed.start d room chunks) ⟨.streamEnd, Member.texts ms⟩ ↔
      ∀ f, Reaches (feedTurn ws) (Feed.start d room chunks) f → ¬ StarvedAt f) ∧
    ((∀ chunk ∈ chunks, chunk.length ≤ mzClamp) →
      ∀ f, Reaches (feedTurn ws) (Feed.start d room chunks) f → ¬ StarvedAt f) ∧
    ∀ (dst : Option ℕ) (cap : ℕ), (dst.isNone → cap = 0) → (Member.texts ms).length ≤ cap →
      ((∃ buf, decompressOne lookup opts (Member.codes ms) dst cap = (.ok, buf) ∧
          buf.dstPos = buf.stored.length ∧ buf.stored = Member.texts ms) ↔
        ¬ Starves d.state ⟨Member.codes ms, cap, []⟩ .finish) := by
  have hstart := deflateDecoder_start I hnew hms hratio
  have hne := chunks_ne_nil hms hchunks
  refine ⟨⟨fun hend f hf hst => ?_, fun hstarved => ?_⟩,
    fun hsmall f hf => not_starvedAt_of_small I hnew hms hratio hchunks ws room hsmall hf,
    fun dst cap hdst hcap => ?_⟩
  · obtain ⟨r, hr, herr⟩ := StreamDecoder.feed_fails ws trivial hstart hchunks hne hf hst
    rw [hr.unique hend] at herr
    cases herr
  · obtain ⟨r, hr, hfair⟩ := StreamDecoder.feed_fair ws trivial hstart hchunks hne room hstarved
    cases hfair with
    | ended size within => exact hr
    | missized expected size within => simp [DecoderOpts.hasExpected_of_none hnone] at expected
    | capped ceiling spent writes owing => simp [hnone] at ceiling
  · rw [decompressOne_eq hnew hdst]
    have hshown : StreamDecoder.shownWindow d (oneShotBuffer (Member.codes ms) dst cap) =
        ⟨Member.codes ms, cap, []⟩ := by
      rw [StreamDecoder.shownWindow, d.allowance_none hnone, unread_oneShotBuffer]
      rfl
    constructor
    · rintro ⟨buf, hok, -⟩ hst
      have herr := (deflateDecoder I codec hms).oneShot_fails hstart hdst (hshown ▸ hst)
      simp only [streamCoding, hok] at herr
      cases herr
    · intro hst
      obtain ⟨st, buf, hr, hpos, -, -, hend⟩ :=
        (deflateDecoder I codec hms).oneShot_end hstart hdst (hshown ▸ hst)
      cases hend with
      | ended text size => exact ⟨buf, hr, hpos, text⟩
      | missized text expected size => simp [DecoderOpts.hasExpected_of_none hnone] at expected
      | full noRoom owing =>
        simp only [streamCoding] at owing
        omega
      | capped ceiling spent owing => simp [hnone] at ceiling

/-- Two calls of the reference engine over a clamped input, the second under `MZ_FINISH`
with more room than it has text for. -/
theorem refInflate_starves (c : Progressive UInt8) {s : DeflateState (refInflate c)}
    (hs : s.state = .body) (henc : s.encoder = false) (hcalled : s.mzCalled = false)
    (hmz : s.mz = (⟨0, 0, false⟩ : RefInflate)) {cap : ℕ} (hlen : 2 * mzClamp < c.code.length)
    (hfit : c.ready mzClamp ≤ min cap mzClamp)
    (hroom : c.ready (2 * mzClamp) - c.ready mzClamp < min (cap - c.ready mzClamp) mzClamp)
    (rest : List UInt8) : Starves s ⟨c.code ++ rest, cap, []⟩ .finish := by
  have hclamp : 0 < mzClamp := by norm_num [mzClamp]
  have hready := c.ready_le hlen.le
  have hmono : c.ready mzClamp ≤ c.ready (2 * mzClamp) := c.ready_mono (by omega)
  have hout : (c.text.take (c.ready mzClamp)).length = c.ready mzClamp := by
    rw [List.length_take]
    omega
  have hfirst : engineCall s ⟨c.code ++ rest, cap, []⟩ .finish =
      ⟨.ok, (⟨mzClamp, c.ready mzClamp, false⟩ : RefInflate), mzClamp,
        c.text.take (c.ready mzClamp)⟩ := by
    have htake : (c.code ++ rest).take mzClamp = c.code.take mzClamp :=
      List.take_append_of_le_length (by omega)
    have hcall : engineCall s ⟨c.code ++ rest, cap, []⟩ .finish =
        refInflateStep c ⟨0, 0, false⟩ (c.code.take mzClamp) (min cap mzClamp) .syncFlush := by
      simp [engineCall, engineFlush, henc, hcalled, toMzFlush, hmz, refInflate, htake]
    have hserve : c.serve 0 0 (c.code.take mzClamp) (min cap mzClamp) =
        (mzClamp, c.text.take (c.ready mzClamp)) := by
      simp only [Progressive.serve, List.length_take, List.drop_zero, Nat.zero_add, Nat.sub_zero]
      rw [min_eq_left (by omega), min_eq_left (by omega), min_eq_right hfit]
    have hrest : ¬ c.Ended mzClamp (c.ready mzClamp) := fun h => by
      have := h.1
      omega
    rw [hcall, refInflateStep, hserve]
    dsimp only
    rw [if_neg (by simp), if_neg (by simp), hout, Nat.zero_add, Nat.zero_add, if_neg hrest,
      if_neg (by omega)]
    rfl
  have hturn : deflateStep .finish (s, ⟨c.code ++ rest, cap, []⟩) =
      .inl (afterEngine s ⟨c.code ++ rest, cap, []⟩ (engineCall s ⟨c.code ++ rest, cap, []⟩ .finish),
        ⟨(c.code ++ rest).drop mzClamp, cap - c.ready mzClamp, c.text.take (c.ready mzClamp)⟩) := by
    simp only [deflateStep, hs, bodyStep, henc, hfirst]
    rw [if_neg (by simp), if_neg (by simp), if_neg (by simp), if_neg (by omega)]
    simp [Window.take, Window.put, hout]
  refine ⟨_, .single hturn, by simp [hs], by simp, rfl, ?_, ?_⟩
  · simp only [List.length_drop, List.length_append]
    omega
  · have hsecond (w : Window) (s' : DeflateState (refInflate c)) (hcalled : s'.mzCalled = true)
        (hmz : s'.mz = (⟨mzClamp, c.ready mzClamp, false⟩ : RefInflate)) :
        engineCall s' w .finish = refInflateStep c ⟨mzClamp, c.ready mzClamp, false⟩
          (w.input.take mzClamp) (min w.room mzClamp) .finish := by
      simp [engineCall, engineFlush, hcalled, toMzFlush, hmz, refInflate]
    rw [hsecond _ _ (by simp) (by rw [afterEngine_mz, hfirst])]
    apply refInflateStep_short
    · have hview := List.length_take_le mzClamp ((c.code ++ rest).drop mzClamp)
      simp only
      omega
    · refine lt_of_le_of_lt (c.serve_length_le ..) (lt_of_le_of_lt ?_ hroom)
      refine Nat.sub_le_sub_right (c.ready_mono ?_) _
      have hview := List.length_take_le mzClamp ((c.code ++ rest).drop mzClamp)
      rw [two_mul]
      exact Nat.add_le_add_left hview mzClamp

/-- So a raw stream that long in one buffer fails. -/
theorem rawDecoder_starves (c : Progressive UInt8) (hlen : 2 * mzClamp < c.code.length)
    (hfit : c.ready mzClamp ≤ mzClamp)
    (hroom : c.ready (2 * mzClamp) - c.ready mzClamp <
      min (c.text.length - c.ready mzClamp) mzClamp) (ws : Windows) {written : List UInt8} :
    ¬ Returns (feedTurn ws) (Feed.start (rawDecoder c 0) c.text.length [c.code])
      ⟨.streamEnd, written⟩ := by
  intro hend
  have hstart := deflateDecoder_start (refInflates c) (rawDecoder_new c 0) (rawStream_valid c 0) rfl
  have hcode : [c.code].flatten = (streamCoding (rawStream c)).code := by
    simp [streamCoding, rawStream, Member.codes, Member.code]
  have hnone : (rawDecoder c 0).opts.ceiling = none := rawOpts_unlimited
  have hready := c.ready_le (show mzClamp ≤ c.code.length by omega)
  have hstarved : StarvedAt (Feed.start (rawDecoder c 0) c.text.length [c.code]) := by
    have hshown : StreamDecoder.shownWindow (rawDecoder c 0) (.ofParts c.code c.text.length) =
        ⟨c.code, c.text.length, []⟩ := by
      rw [StreamDecoder.shownWindow, Decoder.allowance_none _ hnone, Buffer.unread_ofParts,
        Buffer.availOut_ofParts]
    rw [StarvedAt, Feed.start, hshown]
    have hst := refInflate_starves c (s := (rawDecoder c 0).state) rfl rfl rfl rfl hlen (by omega)
      hroom []
    rw [List.append_nil] at hst
    exact hst
  obtain ⟨r, hr, herr⟩ := StreamDecoder.feed_fails ws trivial hstart hcode (by simp) .refl hstarved
  rw [hr.unique hend] at herr
  cases herr

theorem length_storedZeros (n : ℕ) : (storedZeros n).code.length = n * 65540 + 5 := by
  simp [storedZeros, length_zeroBlock]

theorem storedZeros_ready (n p : ℕ) :
    (storedZeros n).ready p = p / 65540 * 65535 + (p % 65540 - 5) := rfl

theorem length_text_storedZeros (n : ℕ) : (storedZeros n).text.length = n * 65535 := by
  simp [storedZeros]

/-- Over 4 GiB of stored blocks in one buffer, with room for all they decode to, fail. -/
theorem clamp_seen :
    ¬ ∀ (M : Miniz) (Valid : Progressive UInt8 → Prop) (_ : Inflates M.inflate Valid)
      (codec : CodecId) (wrap : WrapKind) (lookup : CodecId → Option CodecVtable)
      (opts : DecoderOpts) (d : Decoder (deflateVtable M codec wrap))
      (_ : decoderNew lookup opts = .ok ⟨deflateVtable M codec wrap, d⟩) (ms : List Member)
      (_ : wrap.ValidStream Valid d.opts.flags ms) (_ : d.opts.maxRatio = 0)
      (_ : d.opts.ceiling = none) (chunks : List (List UInt8))
      (_ : chunks.flatten = Member.codes ms) (ws : Windows) (room : ℕ)
      (_ : (Member.texts ms).length ≤ room),
      Returns (feedTurn ws) (Feed.start d room chunks) ⟨.streamEnd, Member.texts ms⟩ := by
  intro hall
  have hraw (c : Progressive UInt8) : Returns (feedTurn byteWindows)
      (Feed.start (rawDecoder c 0) c.text.length [c.code])
        ⟨.streamEnd, Member.texts (rawStream c)⟩ :=
    hall (refMiniz c) _ (refInflates c) _ _ _ _ _ (rawDecoder_new c 0) _ (rawStream_valid c 0) rfl
      rawOpts_unlimited [c.code] (by simp [rawStream, Member.codes, Member.code]) byteWindows c.text.length
      (by simp [rawStream, Member.texts, Member.text])
  refine rawDecoder_starves (storedZeros 70000) ?_ ?_ ?_ byteWindows (hraw (storedZeros 70000))
  · rw [length_storedZeros]
    norm_num [mzClamp]
  · rw [storedZeros_ready]
    norm_num [mzClamp]
  · rw [storedZeros_ready, storedZeros_ready, length_text_storedZeros]
    norm_num [mzClamp]

/-- The whole code in one buffer decodes, within the clamp. -/
theorem clamp_visible_fixedA :
    Returns (feedTurn byteWindows) (Feed.start (rawDecoder fixedA 0) 1 [fixedA.code])
      ⟨.streamEnd, [0x61]⟩ := by
  have hcode : [fixedA.code].flatten = Member.codes (rawStream fixedA) := rfl
  obtain ⟨hiff, hsmall, -⟩ := clamp_visible (refInflates fixedA) (rawDecoder_new fixedA 0)
    (rawStream_valid fixedA 0) rfl rfl hcode byteWindows 1
  exact hiff.mpr (hsmall (by simp [fixedA, mzClamp]))

end Callers

end Zukomp
