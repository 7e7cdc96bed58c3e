import Zukomp.Core.Sizes
import Zukomp.Frames.Lz4f

/-! # lz4-block, codec_lz4.c

One bare LZ4 block. A block has no length and no end mark, so both directions gather the
whole input until `ZU_FINISH` and then work in one pass, in the caller's window where it is
large enough and through a stage otherwise.
-/

namespace Zukomp

open Library

/-- liblz4's block functions: the block of a source under an acceleration or an HC level, and
the text of a block in a capacity. `none` is a result that reports failure. -/
structure Lz4 where
  compressFast : ℤ → List UInt8 → ℕ → Option (List UInt8)
  compressHC : ℤ → List UInt8 → ℕ → Option (List UInt8)
  decompressSafe : List UInt8 → ℕ → Option (List UInt8)
  decompressPartial : List UInt8 → ℕ → Option (List UInt8)

def lz4MaxInputSize : ℕ := 0x7E000000

def lz4CompressBound (n : ℕ) : ℕ := if lz4MaxInputSize < n then 0 else n + n / 255 + 16

def intMax : ℕ := 2147483647

def lz4hcLevelMin : ℤ := 2

/-- `lz4_state`, the fields of lz4-block: `input` is what has been gathered and `stage` what
has been produced but not yet delivered. -/
structure Lz4bState where
  encoder : Bool
  level : ℤ
  maxOutput : UInt64
  hasExpected : Bool
  expected : UInt64
  input : List UInt8
  stage : List UInt8
  done : Bool

def lz4bNew (encoder : Bool) (level : ℤ) (d : Option DecoderOpts) : Lz4bState where
  encoder := encoder
  level := level
  maxOutput := match d with | some d => d.maxOutput | none => 0
  hasExpected := match d with | some d => d.hasExpected | none => false
  expected := match d with | some d => d.expectedSize | none => 0
  input := []
  stage := []
  done := false

namespace Lz4bState

def clear (s : Lz4bState) : Lz4bState := { s with input := [], stage := [], done := false }

end Lz4bState

def lz4bEncoderReset (s : Lz4bState) (o : EncoderOpts) : Status × Lz4bState :=
  (.ok, { s with level := if o.level ≠ levelDefault then o.level else s.level }.clear)

def lz4bDecoderReset (s : Lz4bState) (o : DecoderOpts) : Status × Lz4bState :=
  (.ok, { s with maxOutput := o.maxOutput, hasExpected := o.hasExpected
                 expected := o.expectedSize }.clear)

/-- `zu_int_lz4b_gather`: append what the caller offered, up to the largest block liblz4
handles in either direction. -/
def lz4bGather (s : Lz4bState) (w : Window) : Status × Lz4bState × Window :=
  if w.input = [] then (.ok, s, w)
  else match sizeAdd s.input.length w.input.length with
    | .error st => (st, s, w)
    | .ok need =>
      if lz4MaxInputSize < need then
        (if s.encoder then .errInvalidArgument else .errInvalidData, s, w)
      else (.ok, { s with input := s.input ++ w.input }, w.take w.input.length)

/-- The end of either direction: what has been staged is drained into the window, and into
those of the calls that follow. -/
def lz4bDrain (s : Lz4bState) (w : Window) : Status × Lz4bState × Window :=
  let r := lz4Drain s.stage w
  (if r.1 = [] then .streamEnd else .needOutput, { s with stage := r.1 }, r.2)

/-- The block or the text is complete; the input is no longer needed. -/
def Lz4bState.produce (s : Lz4bState) (stage : List UInt8) : Lz4bState :=
  { s with input := [], stage := stage, done := true }

/-- Before `ZU_FINISH` the input is only gathered. -/
def lz4bHold (s : Lz4bState) (w : Window) : Status × Lz4bState × Window :=
  match lz4bGather s w with
  | (.ok, s, w) => (.needInput, s, w)
  | r => r

variable (Z : Lz4)

/-! ## Encoder -/

def lz4bCompress (level : ℤ) (src : List UInt8) (cap : ℕ) : Option (List UInt8) :=
  let lv := lz4Level level
  if lz4hcLevelMin ≤ lv then Z.compressHC lv src cap
  else Z.compressFast (if lv < 0 then -lv + 1 else 1) src cap

def lz4bEncoderProcess (s : Lz4bState) (w : Window) (mode : Flush) :
    Status × Lz4bState × Window :=
  if s.done then lz4bDrain s w
  else if mode ≠ .finish then lz4bHold s w
  else if s.input = [] ∧ w.input.length ≤ lz4MaxInputSize ∧
      0 < lz4CompressBound w.input.length ∧ lz4CompressBound w.input.length ≤ w.room then
    -- one-shot: straight from the caller's input into the caller's window
    match lz4bCompress Z s.level w.input (lz4CompressBound w.input.length) with
    | none => (.errInternal, s, w)
    | some block =>
      (.streamEnd, { s with done := true }, (w.take w.input.length).put block)
  else match lz4bGather s w with
    | (.ok, s, w) =>
      if lz4CompressBound s.input.length = 0 then (.errInvalidArgument, s, w)
      else match lz4bCompress Z s.level s.input (lz4CompressBound s.input.length) with
        | none => (.errInternal, s, w)
        | some block => lz4bDrain (s.produce block) w
    | r => r

/-! ## Decoder -/

/-- The ceiling of the search for a size nobody told, and whether `max_output` is what stops
it: one input byte yields at most 255 output bytes. -/
def lz4bCeiling (s : Lz4bState) : ℕ × Bool :=
  let ceiling := min (s.input.length * 255 + 64) intMax
  if s.maxOutput ≠ 0 ∧ s.maxOutput.toNat < ceiling then (s.maxOutput.toNat, true)
  else (ceiling, false)

/-- One try at a capacity. When it fails, the block must fill the capacity for the search to
go on at a larger one. -/
def lz4bTry (input : List UInt8) (ceiling : ℕ) (limited : Bool) (cap : ℕ) :
    ℕ ⊕ Except Status (List UInt8) :=
  match Z.decompressSafe input cap with
  | some text => .inr (.ok text)
  | none => match Z.decompressPartial input cap with
    | none => .inr (.error .errInvalidData)
    | some text =>
      if text.length < cap then .inr (.error .errInvalidData)
      else if ceiling ≤ cap then
        .inr (.error (if limited then .errOutputLimit else .errInvalidData))
      else .inl (if ceiling / 4 < cap then ceiling else cap * 4)

/-- `zu_int_lz4b_search`: every try that goes on is at a larger capacity. -/
def lz4bSearch (s : Lz4bState) : Except Status (List UInt8) :=
  let ceiling := (lz4bCeiling s).1
  runLoop (lz4bTry Z s.input ceiling (lz4bCeiling s).2) (fun _ => .error .errInternal)
    (ceiling + 1) (min (max (s.input.length * 4) 4096) ceiling)

/-- A text of exactly the size wanted, in a capacity of that size. -/
def lz4bExact (input : List UInt8) (want : ℕ) : Option (List UInt8) :=
  match Z.decompressSafe input want with
  | some text => if text.length = want then some text else none
  | none => none

def lz4bDecoderProcess (s : Lz4bState) (w : Window) (mode : Flush) :
    Status × Lz4bState × Window :=
  if s.done then lz4bDrain s w
  else if mode ≠ .finish then lz4bHold s w
  else if s.hasExpected then
    if s.maxOutput ≠ 0 ∧ s.maxOutput < s.expected then (.errOutputLimit, s, w)
    else if intMax < s.expected.toNat then (.errInvalidData, s, w)
    else if s.input = [] ∧ s.expected.toNat ≤ w.room then
      -- one-shot: straight into the caller's window
      if w.input = [] ∨ lz4MaxInputSize < w.input.length then (.errInvalidData, s, w)
      else match lz4bExact Z w.input s.expected.toNat with
        | none => (.errInvalidData, s, w)
        | some text =>
          (.streamEnd, { s with done := true }, (w.take w.input.length).put text)
    else match lz4bGather s w with
      | (.ok, s, w) =>
        if s.input = [] then (.errInvalidData, s, w)
        else match lz4bExact Z s.input s.expected.toNat with
          | none => (.errInvalidData, s, w)
          | some text => lz4bDrain (s.produce text) w
      | r => r
  else match lz4bGather s w with
    | (.ok, s, w) =>
      if s.input = [] then (.errInvalidData, s, w)
      else match lz4bSearch Z s with
        | .error st => (st, s, w)
        | .ok text => lz4bDrain (s.produce text) w
    | r => r

/-! ## Vtable -/

def codecLz4Block : CodecId := 19

def lz4BlockCodec : CodecVtable where
  codec := codecLz4Block
  levelMin := lz4LevelMin
  levelMax := lz4LevelMax
  levelDefault := lz4LevelDefault
  flags := canEncode ||| canDecode
  Enc := Lz4bState
  Dec := Lz4bState
  encoderNew o := .ok (lz4bNew true o.level none)
  encoderProcess := onBuffer (lz4bEncoderProcess Z)
  encoderReset := some lz4bEncoderReset
  decoderNew o := .ok (lz4bNew false levelDefault (some o))
  decoderProcess := onBuffer (lz4bDecoderProcess Z)
  decoderReset := some lz4bDecoderReset

theorem lz4BlockCodec_encodes :
    (lz4BlockCodec Z).encoderProcess = onBuffer (lz4bEncoderProcess Z) := rfl

theorem lz4BlockCodec_decodes :
    (lz4BlockCodec Z).decoderProcess = onBuffer (lz4bDecoderProcess Z) := rfl

end Zukomp
