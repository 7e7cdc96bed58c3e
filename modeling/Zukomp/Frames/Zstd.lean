import Zukomp.Frames.Process

/-! # zstd, codec_zstd.c

libzstd's streaming API in both directions. What zukomp adds is the classification, the
frame continuation policy and a decoder window bounded by `max_output`.
-/

namespace Zukomp

open Library

/-- The error codes that zukomp tells apart. -/
inductive ZstdError where
  | checksumWrong | memoryAllocation | windowTooLarge | dictionaryWrong
  | frameParameterUnsupported | versionUnsupported | parameterUnsupported | parameterOutOfBound
  | other
  deriving DecidableEq

/-- `ZSTD_EndDirective` -/
inductive ZstdEnd where
  | eContinue | eFlush | eEnd
  deriving DecidableEq

/-- What `ZSTD_compressStream2` did: what remains to be flushed, or an error. -/
structure ZstdStep (σ : Type) where
  remaining : Except ZstdError ℕ
  state : σ
  used : ℕ
  out : List UInt8

/-- libzstd: its decompressor, and its compressor over a context of its own. Calls that can
only succeed or fail answer `none` on failure. -/
structure Zstd extends FrameLib ZstdError where
  createDCtx : Option State
  setWindowLogMax : State → ℕ → Option State
  resetDCtx : State → Option State
  CCtx : Type
  createCCtx : Option CCtx
  setLevel : CCtx → ℤ → Option CCtx
  setChecksumFlag : CCtx → Option CCtx
  resetCCtx : CCtx → Option CCtx
  compress : CCtx → List UInt8 → ℕ → ZstdEnd → ZstdStep CCtx
  compress_used_le : ∀ z input room op, (compress z input room op).used ≤ input.length
  compress_out_le : ∀ z input room op, (compress z input room op).out.length ≤ room

/-- `ZSTD_CLEVEL_DEFAULT` -/
def zstdLevelDefault : ℤ := 3

/-! ## Status mapping -/

def zstdError (encoder : Bool) (maxOutput : UInt64) : ZstdError → Status
  | .checksumWrong => .errChecksum
  | .memoryAllocation => .errMemory
  -- under a limit, the limit refuses the window the frame asks for
  | .windowTooLarge => if maxOutput ≠ 0 then .errOutputLimit else .errUnsupported
  | .dictionaryWrong | .frameParameterUnsupported | .versionUnsupported => .errUnsupported
  | .parameterUnsupported | .parameterOutOfBound => .errInvalidArgument
  | .other => if encoder then .errInternal else .errInvalidData

/-- `ceil(log2(n))` for `n ≥ 1`. -/
def ceilLog2 (n : UInt64) : ℕ :=
  runLoop (fun b => if b < 63 ∧ 2 ^ b < n.toNat then .inl (b + 1) else .inr b) id 64 0

def zstdWindowLogDefault : ℕ := 27
def zstdWindowLogFloor : ℕ := 23

/-- The cap on the decoder window: the default, or the next power of two at or above
`max_output`, never below the floor. -/
def zstdWindowLog (maxOutput : UInt64) : ℕ :=
  if maxOutput ≠ 0 then min (max (ceilLog2 maxOutput) zstdWindowLogFloor) zstdWindowLogDefault
  else zstdWindowLogDefault

/-! ## Lifecycle -/

variable (Z : Zstd)

structure ZstdEncoder where
  cctx : Z.CCtx
  level : ℤ
  done : Bool

structure ZstdDecoder extends FramedState Z.toFrameLib where
  maxOutput : UInt64

variable {Z}

def zstdLevel (s : ZstdEncoder Z) (level : ℤ) : Status × ZstdEncoder Z :=
  let lv := if level = levelDefault then zstdLevelDefault else level
  match Z.setLevel s.cctx lv with
  | none => (.errInvalidArgument, s)
  | some z => (.ok, { s with cctx := z, level := lv })

def zstdEncoderNew (Z : Zstd) (o : EncoderOpts) : Except Status (ZstdEncoder Z) :=
  match Z.createCCtx with
  | none => .error .errMemory
  | some z => match zstdLevel ⟨z, 0, false⟩ o.level with
    | (.ok, s) => match Z.setChecksumFlag s.cctx with
      | none => .error .errInternal
      | some z => .ok { s with cctx := z }
    | (st, _) => .error st

def zstdWindow (s : ZstdDecoder Z) : Status × ZstdDecoder Z :=
  match Z.setWindowLogMax s.dctx (zstdWindowLog s.maxOutput) with
  | none => (.errInternal, s)
  | some z => (.ok, { s with dctx := z })

def zstdDecoderNew (Z : Zstd) (o : DecoderOpts) : Except Status (ZstdDecoder Z) :=
  match Z.createDCtx with
  | none => .error .errMemory
  | some z =>
    match zstdWindow ⟨⟨z, framesInit .zstd o.flags⟩, o.maxOutput⟩ with
    | (.ok, s) => .ok s
    | (st, _) => .error st

/-- Session only: the level and the checksum flag survive. -/
def zstdEncoderReset (s : ZstdEncoder Z) (o : EncoderOpts) : Status × ZstdEncoder Z :=
  match Z.resetCCtx s.cctx with
  | none => (.errInternal, s)
  | some z =>
    let s := { s with cctx := z }
    if o.level ≠ levelDefault ∧ o.level ≠ s.level then
      match zstdLevel s o.level with
      | (.ok, s) => (.ok, { s with done := false })
      | (st, s) => (st, s)
    else (.ok, { s with done := false })

def zstdDecoderReset (s : ZstdDecoder Z) (o : DecoderOpts) : Status × ZstdDecoder Z :=
  match Z.resetDCtx s.dctx with
  | none => (.errInternal, s)
  | some z => zstdWindow ⟨⟨z, framesInit .zstd o.flags⟩, o.maxOutput⟩

/-! ## Process -/

def zstdOp : Flush → ZstdEnd
  | .finish => .eEnd
  | .flush => .eFlush
  | .run => .eContinue

/-- One turn of the encoder's loop. -/
def zstdEncoderStep (mode : Flush) (x : ZstdEncoder Z × Window) :
    ZstdEncoder Z × Window ⊕ Status × ZstdEncoder Z × Window :=
  let r := Z.compress x.1.cctx x.2.input x.2.room (zstdOp mode)
  let s := { x.1 with cctx := r.state }
  match r.remaining with
  | .error code => .inr (zstdError true 0 code, s, x.2)
  | .ok n =>
    let w := (x.2.take r.used).put r.out
    if mode = .finish ∧ n = 0 then .inr (.streamEnd, { s with done := true }, w)
    else if w.input = [] ∧ (mode = .run ∨ n = 0) then .inr (.needInput, s, w)
    else if r.used = 0 ∧ r.out = [] then
      .inr (if x.2.room = 0 then .needOutput else .errInternal, s, w)
    else .inl (s, w)

/-- Every turn that goes on moves a byte. -/
def zstdEncoderProcess (s : ZstdEncoder Z) (w : Window) (mode : Flush) :
    Status × ZstdEncoder Z × Window :=
  if s.done then (.streamEnd, s, w)
  else runLoop (zstdEncoderStep mode) (fun x => (.errInternal, x.1, x.2))
    (w.input.length + w.room + 1) (s, w)

def zstdFeedHeld (maxOutput : UInt64) : Z.State → List UInt8 → Status × Z.State :=
  feedHeld (zstdError false maxOutput) fun r n => r.used == n

def zstdDecoderProcess (s : ZstdDecoder Z) (w : Window) (mode : Flush) :
    Status × ZstdDecoder Z × Window :=
  match framedProcess (zstdError false s.maxOutput) (zstdFeedHeld s.maxOutput) s.toFramedState w
      mode with
  | (st, f, w) => (st, { s with toFramedState := f }, w)

def codecZstd : CodecId := 17

def zstdCodec (Z : Zstd) : CodecVtable where
  codec := codecZstd
  levelMin := -131072
  levelMax := 22
  levelDefault := zstdLevelDefault
  flags := canEncode ||| canDecode ||| canFlush
  Enc := ZstdEncoder Z
  Dec := ZstdDecoder Z
  encoderNew := zstdEncoderNew Z
  encoderProcess := onBuffer zstdEncoderProcess
  encoderReset := some zstdEncoderReset
  decoderNew := zstdDecoderNew Z
  decoderProcess := onBuffer zstdDecoderProcess
  decoderReset := some zstdDecoderReset

theorem zstdCodec_encodes (Z : Zstd) : (zstdCodec Z).encoderProcess = onBuffer zstdEncoderProcess :=
  rfl

theorem zstdCodec_decodes (Z : Zstd) : (zstdCodec Z).decoderProcess = onBuffer zstdDecoderProcess :=
  rfl

/-! ## One frame -/

def zstdA : Progressive UInt8 :=
  lateFrame [0x28, 0xB5, 0x2F, 0xFD, 0x20, 0x01, 0x09, 0x00, 0x00, 0x61] (by simp) [0x61] 10 le_rfl

theorem noCompress_used_le (_ : Unit) (input : List UInt8) (_ : ℕ) (_ : ZstdEnd) :
    0 ≤ input.length := Nat.zero_le _

theorem noCompress_out_le (_ : Unit) (_ : List UInt8) (room : ℕ) (_ : ZstdEnd) :
    0 ≤ room := Nat.zero_le _

/-- A libzstd that knows one frame. -/
def refZstd (c : Progressive UInt8) : Zstd where
  toFrameLib := refUnframe c .other
  createDCtx := some (⟨0, 0⟩ : RefUnframe)
  setWindowLogMax z _ := some z
  resetDCtx _ := some (⟨0, 0⟩ : RefUnframe)
  CCtx := Unit
  createCCtx := some ()
  setLevel _ _ := some ()
  setChecksumFlag _ := some ()
  resetCCtx _ := some ()
  compress _ _ _ _ := ⟨.error .other, (), 0, []⟩
  compress_used_le := noCompress_used_le
  compress_out_le := noCompress_out_le

end Zukomp
