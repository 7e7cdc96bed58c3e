import Zukomp.Core.Types
import Zukomp.Library.Concat

/-! # Streaming frame libraries

libzstd's and liblz4's decompressors are parameters of the model. A `FrameLib` is one of
them, with its own error codes, and `ReadsFrames` is what the framed decoders rely on: a call that
moves nothing lacks input, or room for text that is still to come, and the end is reported once the
frame is read and written. A library may give up on a caller that moves nothing time after time.
`Unframes` is the ideal: it also stops reading only when output it holds cannot be written.
-/

namespace Zukomp

open Library

/-- What the library's return value says. -/
inductive FrameResult (ε : Type) where
  | ended | more
  | error (code : ε)
  deriving DecidableEq

/-- What a call took from the input and wrote to the output. -/
structure FrameStep (σ ε : Type) where
  result : FrameResult ε
  state : σ
  used : ℕ
  out : List UInt8

/-- A streaming decompressor with error codes `ε`. -/
structure FrameLib (ε : Type) where
  State : Type
  decompress : State → List UInt8 → ℕ → FrameStep State ε
  used_le : ∀ z input room, (decompress z input room).used ≤ input.length
  out_le : ∀ z input room, (decompress z input room).out.length ≤ room

variable {ε : Type}

/-! ## What is relied on -/

/-- What a call is assumed to do at `(p, q)` of the frame `c`. `At n` holds of a library that bears
`n` more calls in a row that move nothing: this one may be of them, and one that moves restores it to
`full`. -/
structure FrameRead (L : FrameLib ε) (At : ℕ → Coding UInt8 → L.State → ℕ → ℕ → Prop)
    (Valid : Coding UInt8 → Prop) (full n : ℕ) (c : Coding UInt8) (p q : ℕ) (input : List UInt8)
    (room : ℕ) (r : FrameStep L.State ε) : Prop where
  within : p + r.used ≤ c.code.length
  writes : c.Writes q r.out
  -- the magic is taken whatever the room
  magic : r.used < input.length → ¬ c.Ended (p + r.used) (q + r.out.length) → 4 ≤ p + r.used
  starved : r.used = 0 → r.out = [] →
    (input ≠ [] → room = 0 ∧ q < c.text.length) ∧ (room ≠ 0 → p < c.code.length)
  -- libzstd gives the last byte of a frame back until its text is written
  ended : c.Ended (p + r.used) (q + r.out.length) → r.result = .ended ∧
    ∀ c', Valid c' → At (if 1 < r.used ∨ r.out ≠ [] then full else n) c' r.state 0 0
  more : ¬ c.Ended (p + r.used) (q + r.out.length) → r.result = .more ∧
    At (if 0 < r.used ∨ r.out ≠ [] then full else n) c r.state (p + r.used) (q + r.out.length)

/-- The library decodes the valid frames, one after another, given the memory that it asks for.
`At n c z p q` says that `z` has read `p` bytes of the frame `c` and written `q` of its text. -/
structure ReadsFrames (L : FrameLib ε) (Valid : Coding UInt8 → Prop) where
  At : ℕ → Coding UInt8 → L.State → ℕ → ℕ → Prop
  spare : ℕ
  weaken : ∀ {m n c z p q}, m ≤ n → At n c z p q → At m c z p q
  bounds : ∀ {n c z p q}, At n c z p q → p ≤ c.code.length ∧ q ≤ c.text.length
  decompress : ∀ {n c z p q input} (room : ℕ), Valid c → At (n + 1) c z p q → ¬ c.Ended p q →
    c.Sees p input →
      FrameRead L At Valid (spare + 4) n c p q input room (L.decompress z input room)

/-- It bears any number of calls that move nothing. -/
def ReadsFrames.Tireless {L : FrameLib ε} {Valid : Coding UInt8 → Prop} (I : ReadsFrames L Valid) :
    Prop := ∀ {m n c z p q}, I.At m c z p q → I.At n c z p q

/-! ## The ideal -/

/-- What a call is assumed to do at `(p, q)` of a frame. -/
structure UnframeStep (L : FrameLib ε) (At : Progressive UInt8 → L.State → ℕ → ℕ → Prop)
    (Valid : Progressive UInt8 → Prop) (c : Progressive UInt8) (p q : ℕ) (input : List UInt8)
    (room : ℕ) (r : FrameStep L.State ε) : Prop where
  serves : c.Serves p q input room r.used r.out
  stops : r.used < input.length → ¬ c.Ended (p + r.used) (q + r.out.length) →
    q + r.out.length < c.ready (p + r.used)
  ended : c.Ended (p + r.used) (q + r.out.length) →
    r.result = .ended ∧ ∀ c', Valid c' → At c' r.state 0 0
  more : ¬ c.Ended (p + r.used) (q + r.out.length) →
    r.result = .more ∧ At c r.state (p + r.used) (q + r.out.length)

/-- The library decodes the valid frames, one after another. -/
structure Unframes (L : FrameLib ε) (Valid : Progressive UInt8 → Prop) where
  At : Progressive UInt8 → L.State → ℕ → ℕ → Prop
  bounds : ∀ {c z p q}, At c z p q → p ≤ c.code.length ∧ q ≤ c.ready p
  decompress : ∀ {c z p q input} (room : ℕ), Valid c → At c z p q → ¬ c.Ended p q →
    c.Sees p input → UnframeStep L At Valid c p q input room (L.decompress z input room)

/-- A valid frame that decodes to nothing by its magic. -/
def Unframed (Valid : Progressive UInt8 → Prop) (c : Coding UInt8) : Prop :=
  ∃ f : Progressive UInt8, Valid f ∧ f.toCoding = c ∧ f.ready 4 = 0

/-- An ideal library reads frames, and bears any caller. -/
def Unframes.reads {L : FrameLib ε} {Valid : Progressive UInt8 → Prop} (I : Unframes L Valid) :
    ReadsFrames L (Unframed Valid) where
  At _ c z p q := ∃ f : Progressive UInt8, Valid f ∧ f.toCoding = c ∧ f.ready 4 = 0 ∧ I.At f z p q
  spare := 0
  weaken _ h := h
  bounds := by
    rintro _ _ _ p q ⟨f, -, rfl, -, hat⟩
    obtain ⟨hp, hq⟩ := I.bounds hat
    exact ⟨hp, hq.trans (f.ready_le hp)⟩
  decompress := by
    rintro _ _ z p q input room - ⟨f, hf, rfl, hsilent, hat⟩ hend hsees
    have hr := I.decompress room hf hat hend hsees
    obtain ⟨hp, hq⟩ := I.bounds hat
    have hserves := hr.serves
    refine ⟨hserves.within, hserves.writes, fun hlt hmore => ?_, fun hu ho => ⟨fun hx => ?_, fun hroom => ?_⟩,
      fun hdone => ⟨(hr.ended hdone).1, ?_⟩, fun hmore => ⟨(hr.more hmore).1, f, hf, rfl, hsilent,
        (hr.more hmore).2⟩⟩
    · have hstop := hr.stops hlt hmore
      by_contra hshort
      have hmono := f.ready_mono (show p + (L.decompress z input room).used ≤ 4 by omega)
      omega
    · obtain ⟨hzero, hlt⟩ := (hserves.starved hu ho).1 hx
      exact ⟨hzero, hlt.trans_le (f.ready_le hp)⟩
    · have hqr := ((hserves.starved hu ho).2 hroom).2
      refine lt_of_le_of_ne hp fun heq => hend ⟨heq, ?_⟩
      rw [hqr, heq, f.ready_full]
    · rintro c' ⟨f', hf', rfl, hsilent'⟩
      exact ⟨f', hf', rfl, hsilent', (hr.ended hdone).2 f' hf'⟩

theorem Unframes.reads_tireless {L : FrameLib ε} {Valid : Progressive UInt8 → Prop}
    (I : Unframes L Valid) : I.reads.Tireless := fun h => h

/-! ## A reference library for one frame -/

/-- Where the reference library stands in the frame. -/
structure RefUnframe where
  read : ℕ
  written : ℕ
  deriving DecidableEq

/-- Decode the frame `c` over and over: read and write all that the views allow, and fail
on other bytes. -/
def refUnframeStep (c : Progressive UInt8) (other : ε) (z : RefUnframe) (input : List UInt8)
    (room : ℕ) : FrameStep RefUnframe ε :=
  let u := (c.serve z.read z.written input room).1
  let o := (c.serve z.read z.written input room).2
  if input.take u ≠ (c.code.drop z.read).take u then ⟨.error other, z, 0, []⟩
  else if c.Ended (z.read + u) (z.written + o.length) then ⟨.ended, ⟨0, 0⟩, u, o⟩
  else ⟨.more, ⟨z.read + u, z.written + o.length⟩, u, o⟩

def refUnframe (c : Progressive UInt8) (other : ε) : FrameLib ε where
  State := RefUnframe
  decompress := refUnframeStep c other
  used_le z input room := by
    unfold refUnframeStep
    dsimp only
    split_ifs
    · exact Nat.zero_le _
    all_goals exact c.serve_read_le z.read z.written input room
  out_le z input room := by
    unfold refUnframeStep
    dsimp only
    split_ifs
    · exact Nat.zero_le _
    all_goals exact c.serve_room_le z.read z.written input room

theorem refUnframe_decompresses (c : Progressive UInt8) (other : ε) (z : RefUnframe) {p q : ℕ}
    {input : List UInt8} (room : ℕ)
    (h : c = c ∧ z = ⟨p, q⟩ ∧ p ≤ c.code.length ∧ q ≤ c.ready p) (hend : ¬ c.Ended p q)
    (hsees : c.Sees p input) :
    UnframeStep (refUnframe c other)
      (fun c' z p q => c' = c ∧ z = (⟨p, q⟩ : RefUnframe) ∧ p ≤ c.code.length ∧ q ≤ c.ready p) (· = c)
      c p q input room ((refUnframe c other).decompress z input room) := by
  obtain ⟨-, rfl, hp, hq⟩ := h
  have hserves := c.serve_serves hp hq hend input room
  have hsame := hsees.take_eq (u := (c.serve p q input room).1) hserves.read_le
    (by have := hserves.within; omega)
  have hstep : (refUnframe c other).decompress (⟨p, q⟩ : RefUnframe) input room =
      refUnframeStep c other ⟨p, q⟩ input room := rfl
  rw [hstep, refUnframeStep]
  dsimp only
  rw [if_neg (by simp [hsame])]
  split_ifs with hdone
  · exact ⟨hserves, fun _ h => absurd hdone h,
      fun _ => ⟨rfl, fun c' h => ⟨h, rfl, Nat.zero_le _, Nat.zero_le _⟩⟩,
      fun h => absurd hdone h⟩
  · exact ⟨hserves, fun hu _ => c.serve_stops hserves hdone hu, fun h => absurd h hdone,
      fun _ => ⟨rfl, rfl, rfl, hserves.within, hserves.determined⟩⟩

def refUnframes (c : Progressive UInt8) (other : ε) : Unframes (refUnframe c other) (· = c) where
  At c' z p q := c' = c ∧ z = ⟨p, q⟩ ∧ p ≤ c.code.length ∧ q ≤ c.ready p
  bounds := by
    rintro _ _ p q ⟨rfl, _, hp, hq⟩
    exact ⟨hp, hq⟩
  decompress := by
    rintro _ z p q input room rfl h hend hsees
    exact refUnframe_decompresses _ other z room h hend hsees

/-- A frame whose text is complete with its byte `full`. -/
def lateFrame (code : List UInt8) (hne : code ≠ []) (text : List UInt8) (full : ℕ)
    (hfull : full ≤ code.length) : Progressive UInt8 where
  code := code
  text := text
  ready p := if p < full then 0 else text.length
  ready_mono a b h := by
    dsimp only
    split_ifs <;> omega
  ready_full := if_neg (by omega)
  code_ne := hne

end Zukomp
