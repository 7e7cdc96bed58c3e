import Zukomp.Frames.Process

/-! # lz4-frame, codec_lz4.c

`LZ4F_*` in both directions. The encoder cannot write into any window, so it writes into a
staging buffer that is then drained into the caller's.
-/

namespace Zukomp

open Library

/-- The error codes that zukomp tells apart. -/
inductive Lz4fError where
  | allocationFailed | blockChecksumInvalid | headerChecksumInvalid | contentChecksumInvalid
  | frameHeaderIncomplete | srcSizeTooLarge | parameterInvalid | compressionLevelInvalid
  | other
  deriving DecidableEq

/-- `LZ4F_preferences_t`, as far as zukomp sets it. -/
structure Lz4fPrefs where
  compressionLevel : ℤ
  contentChecksum : Bool
  contentSize : ℕ
  deriving DecidableEq

/-- liblz4's frame API: its decompressor, and a compressor whose calls write into the stage
or fail. -/
structure Lz4f extends FrameLib Lz4fError where
  createDctx : Option State
  resetDctx : State → State
  Cctx : Type
  createCctx : Option Cctx
  begin : Cctx → Lz4fPrefs → Except Lz4fError (List UInt8) × Cctx
  update : Cctx → List UInt8 → Except Lz4fError (List UInt8) × Cctx
  flush : Cctx → Except Lz4fError (List UInt8) × Cctx
  finish : Cctx → Except Lz4fError (List UInt8) × Cctx

def lz4fChunk : ℕ := 64 * 1024

def lz4LevelMin : ℤ := -65536
def lz4LevelMax : ℤ := 12
def lz4LevelDefault : ℤ := 1

def lz4Level (level : ℤ) : ℤ := if level = levelDefault then lz4LevelDefault else level

def lz4fError (encoder : Bool) : Lz4fError → Status
  | .allocationFailed => .errMemory
  | .blockChecksumInvalid | .headerChecksumInvalid | .contentChecksumInvalid => .errChecksum
  | .frameHeaderIncomplete => .errTruncated
  | .srcSizeTooLarge | .parameterInvalid | .compressionLevelInvalid =>
    if encoder then .errInvalidArgument else .errInvalidData
  | .other => if encoder then .errInternal else .errInvalidData

/-- Move staged bytes into the caller's window: what stays staged. -/
def lz4Drain (stage : List UInt8) (w : Window) : List UInt8 × Window :=
  (stage.drop w.room, w.put (stage.take w.room))

/-! ## Encoder -/

variable (F : Lz4f)

/-- `stage` holds the bytes produced but not yet delivered. -/
structure Lz4fEncoder where
  cctx : F.Cctx
  level : ℤ
  prefs : Lz4fPrefs
  started : Bool
  ended : Bool
  done : Bool
  stage : List UInt8

def lz4fPrefs (level : ℤ) : Lz4fPrefs :=
  { compressionLevel := lz4Level level, contentChecksum := true, contentSize := 0 }

variable {F}

def lz4fEncoderNew (F : Lz4f) (o : EncoderOpts) : Except Status (Lz4fEncoder F) :=
  match F.createCctx with
  | none => .error .errMemory
  | some z => .ok ⟨z, o.level, lz4fPrefs o.level, false, false, false, []⟩

def lz4fEncoderReset (s : Lz4fEncoder F) (o : EncoderOpts) : Status × Lz4fEncoder F :=
  let level := if o.level ≠ levelDefault then o.level else s.level
  (.ok, { s with level := level, prefs := lz4fPrefs level, started := false, ended := false
                 done := false, stage := [] })

/-- The frame's own size goes into its header when the whole input is in the first call. -/
def lz4fBeginPrefs (s : Lz4fEncoder F) (w : Window) (mode : Flush) : Lz4fPrefs :=
  if mode = .finish then { s.prefs with contentSize := w.input.length } else s.prefs

/-- The stage after a call of the library, or the error to return. -/
def lz4fStaged (s : Lz4fEncoder F) (flushed : Bool) (w : Window) :
    Except Lz4fError (List UInt8) →
      (Lz4fEncoder F × Bool) × Window ⊕ Status × Lz4fEncoder F × Window
  | .error code => .inr (lz4fError true code, s, w)
  | .ok bytes => .inl (({ s with stage := bytes }, flushed), w)

/-- One turn of the loop, with a note of whether this call has flushed already. -/
def lz4fEncoderStep (mode : Flush) (x : (Lz4fEncoder F × Bool) × Window) :
    (Lz4fEncoder F × Bool) × Window ⊕ Status × Lz4fEncoder F × Window :=
  let s := { x.1.1 with stage := (lz4Drain x.1.1.stage x.2).1 }
  let w := (lz4Drain x.1.1.stage x.2).2
  let flushed := x.1.2
  if s.stage ≠ [] then .inr (.needOutput, s, w)
  else if s.done then .inr (.streamEnd, s, w)
  else if s.ended then .inr (.streamEnd, { s with done := true }, w)
  else if s.started = false then
    let prefs := lz4fBeginPrefs s w mode
    let r := F.begin s.cctx prefs
    lz4fStaged { s with cctx := r.2, prefs := prefs, started := true } flushed w r.1
  else if w.input ≠ [] then
    let take := min w.input.length lz4fChunk
    let r := F.update s.cctx (w.input.take take)
    match r.1 with
    | .error _ => lz4fStaged { s with cctx := r.2 } flushed w r.1
    -- liblz4 takes all of it
    | .ok _ => lz4fStaged { s with cctx := r.2 } flushed (w.take take) r.1
  else if mode = .finish then
    let r := F.finish s.cctx
    match r.1 with
    | .error _ => lz4fStaged { s with cctx := r.2 } flushed w r.1
    | .ok _ => lz4fStaged { s with cctx := r.2, ended := true } flushed w r.1
  else if mode = .flush ∧ flushed = false then
    let r := F.flush s.cctx
    lz4fStaged { s with cctx := r.2 } true w r.1
  else .inr (.needInput, s, w)

/-- The library is called for the header, for each chunk of input, and once to flush or to
end the frame. -/
def lz4fEncoderProcess (s : Lz4fEncoder F) (w : Window) (mode : Flush) :
    Status × Lz4fEncoder F × Window :=
  runLoop (lz4fEncoderStep mode) (fun x => (.errInternal, x.1.1, x.2)) (w.input.length + 4)
    ((s, false), w)

/-! ## Decoder -/

abbrev Lz4fDecoder (F : Lz4f) := FramedState F.toFrameLib

def lz4fDecoderNew (F : Lz4f) (o : DecoderOpts) : Except Status (Lz4fDecoder F) :=
  match F.createDctx with
  | none => .error .errMemory
  | some z => .ok ⟨z, framesInit .lz4 o.flags⟩

def lz4fDecoderReset (s : Lz4fDecoder F) (o : DecoderOpts) : Status × Lz4fDecoder F :=
  (.ok, ⟨F.resetDctx s.dctx, framesInit .lz4 o.flags⟩)

def lz4fFeedHeld : F.State → List UInt8 → Status × F.State :=
  feedHeld (lz4fError false) fun r n => r.used == n && r.out.isEmpty

def lz4fDecoderProcess : Lz4fDecoder F → Window → Flush → Status × Lz4fDecoder F × Window :=
  framedProcess (lz4fError false) lz4fFeedHeld

def codecLz4Frame : CodecId := 18

def lz4FrameCodec (F : Lz4f) : CodecVtable where
  codec := codecLz4Frame
  levelMin := lz4LevelMin
  levelMax := lz4LevelMax
  levelDefault := lz4LevelDefault
  flags := canEncode ||| canDecode ||| canFlush
  Enc := Lz4fEncoder F
  Dec := Lz4fDecoder F
  encoderNew := lz4fEncoderNew F
  encoderProcess := onBuffer lz4fEncoderProcess
  encoderReset := some lz4fEncoderReset
  decoderNew := lz4fDecoderNew F
  decoderProcess := onBuffer lz4fDecoderProcess
  decoderReset := some lz4fDecoderReset

theorem lz4FrameCodec_encodes (F : Lz4f) :
    (lz4FrameCodec F).encoderProcess = onBuffer lz4fEncoderProcess := rfl

theorem lz4FrameCodec_decodes (F : Lz4f) :
    (lz4FrameCodec F).decoderProcess = onBuffer lz4fDecoderProcess := rfl

/-! ## One frame -/

def lz4fA : Progressive UInt8 :=
  lateFrame [0x04, 0x22, 0x4D, 0x18, 0x60, 0x40, 0x82, 0x01, 0x00, 0x00, 0x80, 0x61,
    0x00, 0x00, 0x00, 0x00] (by simp) [0x61] 12 (by simp)

/-- A liblz4 that knows one frame. -/
def refLz4f (c : Progressive UInt8) : Lz4f where
  toFrameLib := refUnframe c .other
  createDctx := some (⟨0, 0⟩ : RefUnframe)
  resetDctx _ := (⟨0, 0⟩ : RefUnframe)
  Cctx := Unit
  createCctx := some ()
  begin _ _ := (.error .other, ())
  update _ _ := (.error .other, ())
  flush _ := (.error .other, ())
  finish _ := (.error .other, ())

end Zukomp
