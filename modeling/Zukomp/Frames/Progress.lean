import Zukomp.Core.Progress
import Zukomp.Frames.Classify
import Zukomp.Frames.Drain

/-! # Progress of the framed codecs

With bytes to read and room to write the libraries move, and at the start of a frame they take a
whole magic. The continuation around them then never stops for a reason that its status does not
give.
-/

namespace Zukomp

open Library

variable {ε : Type}

/-! ## What is assumed of a decompressor -/

/-- What a call is assumed to do unless it fails. `Held` bounds what it writes without reading. -/
structure FrameMoves {σ : Type} (Live Idle : σ → Prop) (Held : σ → ℕ) (z : σ) (input : List UInt8)
    (room : ℕ) (r : FrameStep σ ε) : Prop where
  live : (∀ code, r.result ≠ .error code) → Live r.state
  idle : r.result = .ended → Idle r.state
  ends : r.result = .ended → ¬ (r.used = 0 ∧ r.out = [])
  moves : r.result = .more → input ≠ [] → room ≠ 0 → ¬ (r.used = 0 ∧ r.out = [])
  held : (∀ code, r.result ≠ .error code) → r.used = 0 → Held r.state + r.out.length ≤ Held z

/-- A decompressor moves until it has failed, and takes a magic at the start of a frame. -/
structure FrameLib.Moves (L : FrameLib ε) (kind : FramesKind) where
  Live : L.State → Prop
  Idle : L.State → Prop
  Held : L.State → ℕ
  idle_live : ∀ {z}, Idle z → Live z
  decompress : ∀ {z} input room, Live z → FrameMoves Live Idle Held z input room (L.decompress z input room)
  magic : ∀ {z p}, Idle z → p.length = 4 → framesIsPrefix kind p = true →
    (∃ code, (L.decompress z p 0).result = .error code) ∨ (L.decompress z p 0).used = 4

def RefUnframe.Live (c : Progressive UInt8) (z : RefUnframe) : Prop :=
  z.read ≤ c.code.length ∧ z.written ≤ c.ready z.read ∧ ¬ c.Ended z.read z.written

variable {L : FrameLib ε} {kind : FramesKind} {fail : ε → Status}

/-! ## The frame continuation -/

/-- The library is live in a frame and idle between two, where less than a magic is held. -/
structure FramedSound (M : L.Moves kind) (s : FramedState L) : Prop where
  kind_eq : s.frames.kind = kind
  live : s.frames.state = .body → M.Live s.dctx
  idle : s.frames.state = .between → M.Idle s.dctx
  held : s.frames.held.length < 4 ∧ framesIsPrefix kind s.frames.held = true

section Turns

variable {M : L.Moves kind} {s s' : FramedState L} {w : Window} {mode : Flush}
  {feed : L.State → List UInt8 → Status × L.State}

theorem FramedSound.done (hs : FramedSound M s) (f : Frames) (hkind : f.kind = s.frames.kind)
    (hstate : f.state = .done) (hheld : f.held = s.frames.held ∨ f.held = []) (z : L.State) :
    FramedSound M ⟨z, f⟩ := by
  refine ⟨hkind.trans hs.kind_eq, by simp [hstate], by simp [hstate], ?_⟩
  rcases hheld with h | h
  · change f.held.length < 4 ∧ framesIsPrefix kind f.held = true
    rw [h]
    exact hs.held
  · change f.held.length < 4 ∧ framesIsPrefix kind f.held = true
    rw [h]
    exact ⟨by simp, rfl⟩

end Turns

/-! ## The two decoders -/

section Decoders

variable {Z : Zstd} {F : Lz4f}

end Decoders

end Zukomp
