import Zukomp.Core.Progress
import Zukomp.Deflate.Bound
import Zukomp.Deflate.Compressor
import Zukomp.Deflate.Drain

/-! # Progress of the DEFLATE family

With bytes to read and room to write, or a stream to finish and room, miniz moves. The wrapper
around it then never stops for a reason that its status does not give, in any of its states.
-/

namespace Zukomp

open Library

/-! ## What is assumed of miniz -/

/-- What a call is assumed to do. `Held` bounds what it writes without reading, where no sync flush
of a compressor asks for more. -/
structure MzMoves (encoder : Bool) {σ : Type} (Live Ended : σ → Prop) (Held : σ → ℕ) (z : σ)
    (input : List UInt8) (room : ℕ) (flush : MzFlush) (r : MzStep σ) : Prop where
  known : r.status ≠ .errno ∧ r.status ≠ .versionError
  live : r.status = .ok ∨ r.status = .bufError → Live r.state
  moves : r.status = .ok ∨ r.status = .bufError → room ≠ 0 →
    input ≠ [] ∨ encoder = true ∧ flush = .finish → ¬ (r.used = 0 ∧ r.out = [])
  ended : r.status = .streamEnd → Ended r.state
  held : r.status = .ok ∨ r.status = .bufError ∨ r.status = .streamEnd → r.used = 0 →
    (input ≠ [] ∨ ¬ (encoder = true ∧ flush = .syncFlush)) → Held r.state + r.out.length ≤ Held z

/-- One direction of miniz moves until it has failed or ended its stream. -/
structure MzStream.Moves (E : MzStream) (encoder : Bool) where
  Live : E.State → Prop
  Ended : E.State → Prop
  Held : E.State → ℕ
  init : ∀ level, (E.init level).1 = .ok → Live (E.init level).2
  init_status : ∀ level, (E.init level).1 ≠ .bufError
  reset : ∀ z, (E.reset z).1 = .ok → Live (E.reset z).2
  reset_held : ∀ {z}, encoder = false → Ended z → Held (E.reset z).2 ≤ Held z
  process : ∀ {z} input room flush, Live z →
    MzMoves encoder Live Ended Held z input room flush (E.process z input room flush)

/-! ## The reference engines -/

section References

/-- A reference decompressor that has not come to the end of its body. -/
def RefInflate.Live (c : Progressive UInt8) (z : RefInflate) : Prop :=
  z.failed = true ∨ (z.read ≤ c.code.length ∧ z.written ≤ c.ready z.read ∧ ¬ c.Ended z.read z.written)

def RefDeflate.held (body : List UInt8 → Option (Progressive UInt8)) (z : RefDeflate) : ℕ :=
  match z.owed with
  | some owed => owed.length
  | none => match body z.taken with
    | some c => c.code.length
    | none => 0

end References

/-! ## The family -/

variable {E : MzStream} {encoder : Bool}

section Turns

variable {D : E.Moves encoder} {s s' : DeflateState E} {w : Window} {mode : Flush}

end Turns

section Vtables

variable {M : Miniz}

end Vtables

end Zukomp
