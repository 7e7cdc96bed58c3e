import Zukomp.Core.Stream
import Zukomp.Frames.Continuation
import Zukomp.Frames.Engine
import Zukomp.Library.Loop

/-! # The loop of the framed decoders

`zstd_decoder_process` and `lz4f_decoder_process` are one loop over their library, with
their own error mapping and their own way to hand it held bytes.
-/

namespace Zukomp

open Library

variable {ε : Type}

/-- The library's context and the frame continuation. -/
structure FramedState (L : FrameLib ε) where
  dctx : L.State
  frames : Frames

variable {L : FrameLib ε}

def frameProbe (fail : ε → Status) (z : L.State) : Probe L.State :=
  let r := L.decompress z [] 1
  match r.result with
  | .error code => ⟨fail code, r.state, none, false⟩
  | .ended => ⟨.ok, r.state, r.out.head?, true⟩
  | .more => ⟨.ok, r.state, r.out.head?, false⟩

/-- Hand the library bytes of a magic, with no room; it must take `all` of them. -/
def feedHeld (fail : ε → Status) (all : FrameStep L.State ε → ℕ → Bool) (z : L.State)
    (p : List UInt8) : Status × L.State :=
  let r := L.decompress z p 0
  match r.result with
  | .error code => (fail code, r.state)
  | _ => (if all r p.length then .ok else .errInternal, r.state)

/-- The result of one turn: another turn, or what the codec returns. -/
abbrev FramedNext (L : FrameLib ε) := FramedState L × Window ⊕ Status × FramedState L × Window

/-- A turn with nothing owed. -/
def frameTurn (fail : ε → Status) (feed : L.State → List UInt8 → Status × L.State) (mode : Flush)
    (s : FramedState L) (w : Window) : FramedNext L :=
  if s.frames.state ≠ .body then
    match framesBetween feed s.frames s.dctx w mode with
    | (.ok, f, z, w) => .inl (⟨z, f⟩, w)
    | (st, f, z, w) => .inr (st, ⟨z, f⟩, w)
  else
    let r := L.decompress s.dctx w.input w.room
    let w' := (w.take r.used).put r.out
    match r.result with
    | .error code => .inr (fail code, ⟨r.state, s.frames⟩, w)
    | .ended => .inl (⟨r.state, framesEnded s.frames⟩, w')
    | .more =>
      if r.used = 0 ∧ r.out = [] then
        match framesStalled (frameProbe fail) s.frames r.state w.input.length w.room mode with
        | (.ok, f, z) => .inl (⟨z, f⟩, w')
        | (st, f, z) => .inr (st, ⟨z, f⟩, w')
      else .inl (⟨r.state, s.frames⟩, w')

def framedStep (fail : ε → Status) (feed : L.State → List UInt8 → Status × L.State) (mode : Flush)
    (x : FramedState L × Window) : FramedNext L :=
  match framesPay x.1.frames x.2 with
  | none => .inr (.needOutput, x.1, x.2)
  | some (f, w) => frameTurn fail feed mode ⟨x.1.dctx, f⟩ w

/-- A turn that moves no byte goes from between frames to the body of one. -/
def framedMeasure (x : FramedState L × Window) : ℕ :=
  2 * (x.2.input.length + x.2.room) + if x.1.frames.state = .between then 1 else 0

/-- The loop, for as many turns as a library that keeps moving can need. -/
def framedProcess (fail : ε → Status) (feed : L.State → List UInt8 → Status × L.State)
    (s : FramedState L) (w : Window) (mode : Flush) : Status × FramedState L × Window :=
  runLoop (framedStep fail feed mode) (fun x => (.errInternal, x.1, x.2))
    (2 * (w.input.length + w.room) + 2) (s, w)

end Zukomp
