import Zukomp.Block.Drain
import Zukomp.Builtins
import Zukomp.Deflate.Drain
import Zukomp.Frames.Drain

/-! # `ZU_NEED_INPUT` of the built-in decoders

A caller that brings a fresh window only on `ZU_NEED_OUTPUT` waits for its peer on
`ZU_NEED_INPUT`. Whether it then waits with decoded bytes still in the decoder depends on how the
codec takes a window that is full when the input runs out.
-/

namespace Zukomp

open Library

namespace Libraries

/-- What the libraries' decompressors are assumed to hold back. -/
structure Drains (K : Libraries) where
  miniz : K.miniz.inflate.Drains
  zstd : K.zstd.toFrameLib.Drains
  lz4f : K.lz4f.toFrameLib.Drains

/-- Every built-in decoder drains, and only the framed ones look at the room left. -/
theorem decoders_drain {K : Libraries} (D : K.Drains) {v : CodecVtable} (hv : v ∈ K.codecs) :
    ∃ k : DecoderDrain v, ∀ room,
      (v.codec = codecZstd ∨ v.codec = codecLz4Frame → room ≠ 0) → k.Tells room := by
  simp only [codecs, List.mem_cons, List.not_mem_nil, or_false] at hv
  obtain rfl | rfl | rfl | rfl | rfl | rfl | rfl := hv
  · exact ⟨identityDrain, fun _ _ => trivial⟩
  · exact ⟨deflateDrain D.miniz codecDeflateRaw .none, fun _ _ => trivial⟩
  · exact ⟨deflateDrain D.miniz codecZlib .zlib, fun _ _ => trivial⟩
  · exact ⟨deflateDrain D.miniz codecGzip .gzip, fun _ _ => trivial⟩
  · exact ⟨zstdDrain D.zstd, fun _ h => h (.inl rfl)⟩
  · exact ⟨lz4FrameDrain D.lz4f, fun _ h => h (.inr rfl)⟩
  · exact ⟨lz4BlockDrain K.lz4, fun _ _ => trivial⟩

/-- The letter `a` in a compressed block, and the end mark. -/
def packedA : Progressive UInt8 :=
  lateFrame [0x04, 0x22, 0x4D, 0x18, 0x60, 0x40, 0x82, 0x02, 0x00, 0x00, 0x00, 0x10, 0x61,
    0x00, 0x00, 0x00, 0x00] (by simp) [0x61] 13 (by simp)

/-- The reference libraries, with an lz4 frame that liblz4 has to decode before it writes. -/
def packed : Libraries := { ref with lz4f := refLz4f packedA }

def packedDrains : packed.Drains where
  miniz := refInflateDrains fixedA
  zstd := refUnframeDrains zstdA rfl ZstdError.other
  lz4f := refUnframeDrains packedA rfl Lz4fError.other

end Libraries

/-- Without a ceiling, a decoder that asks for input under `ZU_RUN` writes nothing more however
often it is called with nothing to read, provided that a framed decoder was left some room. -/
theorem needInput_drained {K : Libraries} (D : K.Drains) {v : CodecVtable} (hv : v ∈ K.codecs)
    {lookup : CodecId → Option CodecVtable} {opts : DecoderOpts} {d : Decoder v}
    (hnew : decoderNew lookup opts = .ok ⟨v, d⟩) {s : Session v} (hs : Session.Reached d s)
    (hceil : s.dec.opts.ceiling = none) {buf : Buffer}
    (hask : (decoderProcess s.dec buf .run).1 = .needInput)
    (hroom : v.codec = codecZstd ∨ v.codec = codecLz4Frame →
      (decoderProcess s.dec buf .run).2.2.availOut ≠ 0) {s' : Session v}
    (hpolls : Session.Later (fun _ op => op.Polls) (s.next (.process buf .run)) s') :
    s'.given = (s.next (.process buf .run)).given := by
  obtain ⟨k, htells⟩ := K.decoders_drain D hv
  obtain ⟨hinv, hquiet⟩ := k.asked (k.inv_reached hnew hs) hceil hask (htells _ hroom)
  exact (k.polled hinv hquiet hpolls).1

/-- A decoder of lz4 frames, at its start. -/
def packedDecoder : Decoder (lz4FrameCodec Libraries.packed.lz4f) where
  state := (⟨(⟨0, 0⟩ : RefUnframe), framesInit .lz4 0⟩ : Lz4fDecoder Libraries.packed.lz4f)
  opts := { structSize := 32, codec := codecLz4Frame, maxOutput := 0, maxRatio := 0, flags := 0,
            expectedSize := 0 }
  finished := false
  totalIn := 0
  totalOut := 0

theorem packedDecoder_new :
    decoderNew (fun _ => some (lz4FrameCodec Libraries.packed.lz4f)) packedDecoder.opts =
      .ok ⟨lz4FrameCodec Libraries.packed.lz4f, packedDecoder⟩ := rfl

/-- Through the block, with one byte of room more than it needs, and a poll. -/
theorem needInput_drained_packed :
    let s := (Session.start packedDecoder).next
      (.process (.ofParts (Libraries.packedA.code.take 13) 2) .run)
    s.given = 1 ∧ (s.next (.process (.ofParts [] 1) .run)).given = 1 := by
  have hgiven : ((Session.start packedDecoder).next
      (.process (.ofParts (Libraries.packedA.code.take 13) 2) .run)).given = 1 := by decide
  have hask : (decoderProcess packedDecoder (.ofParts (Libraries.packedA.code.take 13) 2) .run).1 =
      .needInput := by decide
  refine ⟨hgiven, (needInput_drained Libraries.packedDrains (by simp [Libraries.codecs])
    packedDecoder_new .new rfl hask (fun _ => by decide)
    (.process .here (.ofParts [] 1) .run ⟨by simp, by simp⟩)).trans hgiven⟩

/-- A framed decoder whose window is full when the input runs out asks for input, and writes the
letter as soon as it is given room. -/
theorem needInput_withholds :
    ¬ ∀ {K : Libraries} (_ : K.Drains) {v : CodecVtable} (_ : v ∈ K.codecs)
      {lookup : CodecId → Option CodecVtable} {opts : DecoderOpts} {d : Decoder v}
      (_ : decoderNew lookup opts = .ok ⟨v, d⟩) {s : Session v} (_ : Session.Reached d s)
      (_ : s.dec.opts.ceiling = none) {buf : Buffer}
      (_ : (decoderProcess s.dec buf .run).1 = .needInput) {s' : Session v}
      (_ : Session.Later (fun _ op => op.Polls) (s.next (.process buf .run)) s'),
      s'.given = (s.next (.process buf .run)).given := by
  intro h
  have hask : (decoderProcess packedDecoder (.ofParts (Libraries.packedA.code.take 13) 0) .run).1 =
      .needInput := by decide
  have hsame := h Libraries.packedDrains (by simp [Libraries.codecs]) packedDecoder_new .new rfl
    hask (.process .here (.ofParts [] 1) .run ⟨by simp, by simp⟩)
  revert hsame
  decide

end Zukomp
