import Zukomp.Core.Sessions

/-! # The identity codec, codec_identity.c

Bytes in, the same bytes out. It holds no state, and one copy loop serves both
directions.
-/

namespace Zukomp

/-- Copy as much as both cursors allow, then report what stopped the copy. -/
def identityProcess (s : Unit) (w : Window) (mode : Flush) : Status × Unit × Window :=
  let n := min w.input.length w.room
  let w' := (w.take n).put (w.input.take n)
  (if w'.input ≠ [] then .needOutput else if mode = .finish then .streamEnd else .needInput,
    s, w')

def codecIdentity : CodecId := 1

def identityCodec : CodecVtable where
  codec := codecIdentity
  levelMin := 0
  levelMax := 0
  levelDefault := 0
  flags := canEncode ||| canDecode ||| canFlush
  Enc := Unit
  Dec := Unit
  encoderNew _ := .ok ()
  encoderProcess := onBuffer identityProcess
  encoderReset := some fun s _ => (.ok, s)
  decoderNew _ := .ok ()
  decoderProcess := onBuffer identityProcess
  decoderReset := some fun s _ => (.ok, s)

theorem identityCodec_encodes : identityCodec.encoderProcess = onBuffer identityProcess := rfl

theorem identityCodec_decodes : identityCodec.decoderProcess = onBuffer identityProcess := rfl

theorem identityProcess_moved (w : Window) (mode : Flush) :
    Window.Moved w (min w.input.length w.room) (w.input.take (min w.input.length w.room))
      (identityProcess () w mode).2.2 :=
  ⟨by omega, by simp, rfl⟩

theorem identityCodec_honest : identityCodec.Honest := fun _ buf mode hsrc hdst =>
  buf.advances_advance ⟨_, _, identityProcess_moved buf.window mode⟩ hsrc hdst

def identityOnly : CodecId → Option CodecVtable := fun _ => some identityCodec

def identityDecoder : Decoder identityCodec where
  state := ()
  opts := { structSize := 32, codec := codecIdentity, maxOutput := 0, maxRatio := 0, flags := 0,
            expectedSize := 0 }
  finished := false
  totalIn := 0
  totalOut := 0

theorem identityDecoder_new :
    decoderNew identityOnly identityDecoder.opts = .ok ⟨identityCodec, identityDecoder⟩ := rfl

theorem identity_run_call {d : Decoder identityCodec} (hfin : d.finished = false)
    (hc : d.opts.ceiling = none) (bytes : List UInt8) :
    let o := decoderCall d (.ofParts bytes bytes.length) .run
    o.dec.finished = false ∧ o.buf.srcPos = bytes.length := by
  have hshown : d.shown (.ofParts bytes bytes.length) = .ofParts bytes bytes.length := by
    simp [Decoder.shown, d.allowance_none hc]
  rw [decoderCall_codec (checkBuffer_ofParts ..) hfin (by simp), hshown]
  simp only [identityCodec, onBuffer, Buffer.window_ofParts, identityProcess]
  simp [Decoder.settle, Buffer.advance, Buffer.ofParts, Buffer.unread]

end Zukomp
