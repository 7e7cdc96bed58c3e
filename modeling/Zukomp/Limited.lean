import Zukomp.Block.Limited
import Zukomp.Builtins
import Zukomp.Capacity
import Zukomp.Core.Within

/-! # Whole-buffer decoding of the built-in codecs under an output limit

A valid stream is decoded whole where the limit admits its text, and refused with as much of it as the
limit admits where it does not. Only the DEFLATE family can go either way at the exact size, where the
stream is longer than a slice.
-/

namespace Zukomp

open Library

/-- What lz4-block can gather, and what its own search admits: a block that the limit does not admit is
refused there. -/
structure Lz4bFits (maxOutput : UInt64) (c : Coding UInt8) : Prop where
  block : c.code.length ≤ lz4MaxInputSize
  int : c.text.length ≤ intMax
  admits : maxOutput = 0 ∨ c.text.length ≤ maxOutput.toNat

/-- The codecs that may stall between two slices, with all of the text written. -/
def Builtin.Stalls : Builtin → Prop
  | .deflateRaw | .zlib | .gzip => True
  | .identity | .zstd | .lz4Frame | .lz4Block => False

/-- How a whole-buffer run over the stream `c` ends under an output limit. -/
structure EndsWithin (b : Builtin) (c : Coding UInt8) (maxOutput : UInt64) (inChunk : ℕ)
    (e : Status × OutBuf) : Prop where
  passes : maxOutput = 0 ∨ c.text.length < maxOutput.toNat ∨
    c.text.length = maxOutput.toNat ∧ (b.Stalls → c.code.length ≤ inChunk) →
    e.1 = .streamEnd ∧ e.2.used = c.text
  refuses : maxOutput ≠ 0 → maxOutput.toNat < c.text.length →
    e.1 = .errOutputLimit ∧ e.2.used = c.text.take maxOutput.toNat

section Within

variable {v : CodecVtable} {c : Coding UInt8} {r : RunOpts}

theorem DecoderOpts.ceiling_maxOutput {o : DecoderOpts} (hexp : o.hasExpected = false) :
    o.ceiling = if o.maxOutput = 0 then none else some (o.maxOutput, .errOutputLimit) := by
  unfold ceiling
  rw [if_neg (by simp [hexp])]
  by_cases hmax : o.maxOutput = 0
  · rw [if_neg (by simp [hmax]), if_pos hmax]
  · rw [if_pos hmax, if_neg hmax]

/-- A decoder that keeps the contract ends so. -/
theorem StreamDecoder.endsWithin (k : StreamDecoder v c) {b : Builtin} {d : Decoder v}
    (h : k.Standing d false 0 0) (hexp : d.opts.hasExpected = false)
    (hstall : (∃ p, k.Stall p) → b.Stalls) (hsrc : r.src = c.code) (hin : 0 < r.inChunk)
    (hout : 0 < r.outChunk) (hflush : r.flushEvery = 0)
    (hfits : c.text.length + r.outChunk < wordSize)
    (hf : ∀ x p, k.WholeWithin r d.opts x p → ¬ k.FailsWhole r x) :
    ∃ e, Returns (wholeTurn decoderProcess r) (.start d r .empty) e ∧
      EndsWithin b c d.opts.maxOutput r.inChunk e := by
  obtain ⟨e, hret, hend⟩ := k.whole_within h hsrc hin hout hflush hfits hf
  refine ⟨e, hret, ?_⟩
  have hceil := d.opts.ceiling_maxOutput hexp
  cases hend with
  | ended text size within =>
    refine ⟨fun _ => ⟨rfl, text⟩, fun hmax hlt => ?_⟩
    have := within d.opts.maxOutput .errOutputLimit (by rw [hceil, if_neg hmax])
    omega
  | missized text expected size => simp [hexp] at expected
  | @capped C status out ceiling text owing =>
    rw [hceil] at ceiling
    split_ifs at ceiling with hmax
    cases ceiling
    refine ⟨fun hpass => ?_, fun _ _ => ⟨rfl, text⟩⟩
    exfalso
    rcases hpass with hzero | hlt | ⟨heq, hshort⟩
    · exact hmax hzero
    · omega
    · rcases owing with hlt | ⟨-, hlong, hp⟩
      · omega
      · have := hshort (hstall hp)
        omega

end Within

theorem deflate_not_failsWithin {M : Miniz} {codec : CodecId} {wrap : WrapKind}
    {Valid : Progressive UInt8 → Prop} {ms : List Member} {decFlags : UInt32}
    (I : Inflates M.inflate Valid) (hms : wrap.ValidStream Valid decFlags ms) {r : RunOpts}
    (hin : 0 < r.inChunk) (hsmall : r.inChunk ≤ mzClamp) {opts : DecoderOpts}
    {x : Whole (Decoder (deflateVtable M codec wrap))} {p : ℕ}
    (h : (deflateDecoder I codec hms).WholeWithin r opts x p) :
    ¬ (deflateDecoder I codec hms).FailsWhole r x := by
  rintro ⟨y, hreach, -, -, -, hclamp, -⟩
  have hview := deflateStep_reaches_le hreach
  have hslice := (h.refill hin).1.slice_le
  simp only [StreamDecoder.shownWindow, Buffer.unread_ofParts] at hview
  omega

/-- A block that liblz4 can be given is never too long for the decoder. -/
theorem lz4Block_not_failsWithin {Z : Lz4} {L : Lz4Blocks Z} {b x : List UInt8}
    {hblock : L.Block b x} {hx : x.length ≤ intMax} {hb : b.length < wordSize}
    (hfits : b.length ≤ lz4MaxInputSize) {r : RunOpts} (hin : 0 < r.inChunk) {opts : DecoderOpts}
    {y : Whole (Decoder (lz4BlockCodec Z))} {p : ℕ}
    (h : (lz4BlockWithin L hblock hx hb).WholeWithin r opts y p) :
    ¬ (lz4BlockWithin L hblock hx hb).FailsWhole r y := by
  rintro ⟨hdone, hover⟩
  obtain ⟨last, hstand, -⟩ := h.standing
  have hrest := congrArg List.length (h.refill hin).1.rest
  rw [List.length_append, List.length_drop] at hrest
  change _ = b.length - p at hrest
  have hat : Lz4bWithin b x y.handle.state last p y.out.used.length := hstand.at_
  generalize y.out.used.length = q at hat
  cases hat with
  | gathering admits done input p_le p_max =>
    have hlen := congrArg List.length input
    rw [List.length_take] at hlen
    simp only [StreamDecoder.shownWindow, Buffer.unread_ofParts] at hover
    omega
  | draining done stage q_le =>
    rw [done] at hdone
    cases hdone

/-- A whole-buffer run over a valid stream of a built-in codec delivers the text where the output
limit admits it, and is refused at the limit where it does not. -/
theorem wholeDecode_endsWithin {K : Libraries} {b : Builtin} (D : K.Decodes b)
    {lookup : CodecId → Option CodecVtable} {opts : DecoderOpts} {d : Decoder (K.codec b)}
    (hnew : decoderNew lookup opts = .ok ⟨K.codec b, d⟩) (hratio : d.opts.maxRatio = 0)
    (hexp : d.opts.hasExpected = false) {c : Coding UInt8}
    (hc : D.Stream d.opts.maxOutput d.opts.flags c)
    (hblock : b = .lz4Block → Lz4bFits d.opts.maxOutput c) {r : RunOpts} (hsrc : r.src = c.code)
    (hin : 0 < r.inChunk) (hsmall : r.inChunk ≤ mzClamp) (hout : 0 < r.outChunk)
    (hflush : r.flushEvery = 0) (hfits : c.text.length + r.outChunk < wordSize) :
    ∃ e, Returns (wholeTurn decoderProcess r) (.start d r .empty) e ∧
      EndsWithin b c d.opts.maxOutput r.inChunk e := by
  have hdeflate {wrap : WrapKind} {codec : CodecId} {d : Decoder (deflateVtable K.miniz codec wrap)}
      {ms : List Member} (I : Libraries.Inflating K.miniz.inflate)
      (hnew : decoderNew lookup opts = .ok ⟨deflateVtable K.miniz codec wrap, d⟩)
      (hratio : d.opts.maxRatio = 0) (hexp : d.opts.hasExpected = false)
      (h : wrap.ValidStream I.Body d.opts.flags ms) (hc : c = streamCoding ms) {b : Builtin}
      (hb : b.Stalls) :
      ∃ e, Returns (wholeTurn decoderProcess r) (.start d r .empty) e ∧
        EndsWithin b c d.opts.maxOutput r.inChunk e := by
    subst hc
    exact (deflateDecoder I.inflates _ h).endsWithin (deflateDecoder_start I.inflates hnew h hratio)
      hexp (fun _ => hb) hsrc hin hout hflush hfits fun x p hx =>
        deflate_not_failsWithin I.inflates h hin hsmall hx
  cases b with
  | identity =>
    obtain ⟨x, y⟩ := c
    obtain rfl : y = x := hc
    exact (identityStream y).endsWithin
      (StreamDecoder.standing_new _ hnew hratio ⟨rfl, Nat.zero_le _⟩) hexp
      (fun hp => hp.elim fun _ h => h) hsrc hin hout hflush hfits fun _ _ _ h => h
  | deflateRaw =>
    obtain ⟨ms, h, hc⟩ := hc
    exact hdeflate D hnew hratio hexp h hc trivial
  | zlib =>
    obtain ⟨ms, h, hc⟩ := hc
    exact hdeflate D hnew hratio hexp h hc trivial
  | gzip =>
    obtain ⟨ms, h, hc⟩ := hc
    exact hdeflate D hnew hratio hexp h hc trivial
  | zstd =>
    obtain ⟨fs, h, rfl⟩ := hc
    have I := Libraries.ZstdReading.reads D (zstdWindowLog d.opts.maxOutput)
    exact (zstdStream I.toReadsFrames h).endsWithin (zstdStream_start I hnew hratio h)
      hexp (fun hp => hp.elim fun _ h => h) hsrc hin hout hflush hfits fun _ _ _ h => h
  | lz4Frame =>
    obtain ⟨fs, h, rfl⟩ := hc
    have I := Libraries.Lz4fReading.reads D
    exact (lz4fStream I.toReadsFrames h).endsWithin (lz4fStream_start I hnew hratio h) hexp
      (fun hp => hp.elim fun _ h => h) hsrc hin hout hflush hfits fun _ _ _ h => h
  | lz4Block =>
    have h : Lz4Blocks.Block D c.code c.text := hc
    obtain ⟨hlen, hint, hadmits⟩ := hblock rfl
    have hword : c.code.length < wordSize := hlen.trans_lt (by norm_num [lz4MaxInputSize, wordSize])
    exact (lz4BlockWithin D h hint hword).endsWithin
      (lz4BlockWithin_standing D h hint hword hnew hratio hexp hadmits) hexp
      (fun hp => hp.elim fun _ h => h) hsrc hin hout hflush hfits fun x p hx =>
        lz4Block_not_failsWithin hlen hin hx

end Zukomp
