import Zukomp.Core.Types

/-! # The core stream driver, zu_stream.c

Both handles carry a vtable, the codec's state, the normalised options and a
finished flag; the decoder also counts the bytes of the stream. The ceilings are
enforced by shrinking the window the codec is shown.
-/

namespace Zukomp

/-! ## Shared validation -/

def checkBuffer (buf : Buffer) : Status :=
  if buf.srcSize < buf.srcPos ∨ buf.dstSize < buf.dstPos then .errInvalidArgument
  else if buf.src.isNone ∧ buf.srcSize ≠ 0 then .errInvalidArgument
  else if buf.dst.isNone ∧ buf.dstSize ≠ 0 then .errInvalidArgument
  else .ok

/-- Resolve a codec to a registered vtable that supports `direction`. -/
def resolve (lookup : CodecId → Option CodecVtable) (codec : CodecId) (direction : UInt32) :
    Except Status CodecVtable :=
  match lookup codec with
  | none => .error .errUnsupported
  | some v => if v.can direction then .ok v else .error .errUnsupported

def checkLevel (v : CodecVtable) (level : ℤ) : Status :=
  if level = levelDefault then .ok
  else if v.levelMin = 0 ∧ v.levelMax = 0 ∧ v.levelDefault = 0 then
    if level = 0 then .ok else .errInvalidArgument
  else if level < v.levelMin ∨ v.levelMax < level then .errInvalidArgument
  else .ok

/-! ## Encoder -/

structure Encoder (v : CodecVtable) where
  state : v.Enc
  opts : EncoderOpts
  finished : Bool

/-- `zu_int_copy_opts` at an encoder struct: every field lies in the required part. -/
def copyEncoderOpts (o : EncoderOpts) : EncoderOpts := { o with structSize := encoderOptsSize }

def encoderNew (lookup : CodecId → Option CodecVtable) (opts : EncoderOpts) :
    Except Status (Σ v, Encoder v) :=
  if opts.structSize < encoderOptsSize then .error .errInvalidArgument
  else match resolve lookup opts.codec canEncode with
    | .error st => .error st
    | .ok v =>
      if checkLevel v opts.level ≠ .ok then .error (checkLevel v opts.level)
      else match v.encoderNew (copyEncoderOpts opts) with
        | .error st => .error st
        | .ok state =>
          .ok ⟨v, { state := state, opts := copyEncoderOpts opts, finished := false }⟩

variable {v : CodecVtable}

def encoderProcess (e : Encoder v) (buf : Buffer) (mode : Flush) :
    Status × Encoder v × Buffer :=
  if checkBuffer buf ≠ .ok then (checkBuffer buf, e, buf)
  else if e.finished then
    (if buf.srcPos < buf.srcSize then .errInvalidArgument else .streamEnd, e, buf)
  else if mode = .flush ∧ ¬ v.can canFlush then (.errUnsupported, e, buf)
  else
    match v.encoderProcess e.state buf mode with
    | (st, s, buf') => (st, { e with state := s, finished := st == .streamEnd }, buf')

def encoderReset (e : Encoder v) (opts : Option EncoderOpts) : Status × Encoder v :=
  let given := opts.getD e.opts
  if given.structSize < encoderOptsSize then (.errInvalidArgument, e)
  else
    let use := copyEncoderOpts given
    if use.codec ≠ e.opts.codec then (.errInvalidArgument, e)
    else if checkLevel v use.level ≠ .ok then (checkLevel v use.level, e)
    else match v.encoderReset with
      | none => (.errUnsupported, e)
      | some reset => match reset e.state use with
        | (.ok, s) => (.ok, { state := s, opts := use, finished := false })
        | (st, s) => (st, { e with state := s })

/-! ## Decoder -/

structure Decoder (v : CodecVtable) where
  state : v.Dec
  opts : DecoderOpts
  finished : Bool
  totalIn : UInt64
  totalOut : UInt64

/-- `zu_int_copy_opts` at a decoder struct: only `expected_size` can lie past the
bytes the caller's struct has, and the bytes it lacks are zero. -/
def copyDecoderOpts (o : DecoderOpts) : DecoderOpts :=
  let covered := min 8 (o.structSize.toNat - decoderOptsRequiredSize.toNat)
  { o with
    structSize := decoderOptsSize
    expectedSize := UInt64.ofNat (o.expectedSize.toNat % 2 ^ (8 * covered)) }

/-- An expected size must lie within the struct that announces it. -/
def checkDecOpts (o : DecoderOpts) : Status :=
  if o.structSize < decoderOptsRequiredSize then .errInvalidArgument
  else if o.hasExpected ∧ o.structSize < decoderOptsSize then .errInvalidArgument
  else .ok

def decoderNew (lookup : CodecId → Option CodecVtable) (opts : DecoderOpts) :
    Except Status (Σ v, Decoder v) :=
  if checkDecOpts opts ≠ .ok then .error .errInvalidArgument
  else match resolve lookup opts.codec canDecode with
    | .error st => .error st
    | .ok v => match v.decoderNew (copyDecoderOpts opts) with
      | .error st => .error st
      | .ok state => .ok ⟨v, { state := state, opts := copyDecoderOpts opts,
                               finished := false, totalIn := 0, totalOut := 0 }⟩

/-- The output ceiling in force, with the status that crossing it means. On a tie
the expected size is the explanation. -/
def DecoderOpts.ceiling (o : DecoderOpts) : Option (UInt64 × Status) :=
  if o.hasExpected ∧ (o.maxOutput = 0 ∨ o.expectedSize ≤ o.maxOutput) then
    some (o.expectedSize, .errInvalidData)
  else if o.maxOutput ≠ 0 then some (o.maxOutput, .errOutputLimit)
  else none

def DecoderOpts.overStatus (o : DecoderOpts) : Status :=
  match o.ceiling with
  | some (_, status) => status
  | none => .errOutputLimit

/-- What the ratio policy allows after `totalIn` bytes, saturating at `UINT64_MAX`. -/
def ratioAllowed (maxRatio : UInt32) (totalIn : UInt64) : UInt64 :=
  if totalIn = 0 then 0
  else if (0xFFFFFFFFFFFFFFFF : UInt64) / maxRatio.toUInt64 < totalIn then 0xFFFFFFFFFFFFFFFF
  else totalIn * maxRatio.toUInt64

/-- Cursor differences are taken in `size_t`. -/
def cursorSub (a b : ℕ) : ℕ := if b ≤ a then a - b else a + wordSize - b

/-- How the driver judges a codec's call: a size or ratio limit refuses it, the
trailing policy rejects it, or the codec's own status passes. -/
inductive Verdict where
  | refused (st : Status)
  | trailing
  | passed
  deriving DecidableEq

namespace Decoder

def remaining (d : Decoder v) (ceiling : UInt64) : UInt64 :=
  if d.totalOut < ceiling then ceiling - d.totalOut else 0

/-- The room the codec is shown, and whether a ceiling shrank it. Reaching the ceiling
is not an error by itself, so the allowance may be 0. -/
def allowance (d : Decoder v) (room : ℕ) : ℕ × Bool :=
  match d.opts.ceiling with
  | none => (room, false)
  | some (ceiling, _) =>
    if (d.remaining ceiling).toNat < room then ((d.remaining ceiling).toNat, true)
    else (room, false)

/-- The buffer with its output window shrunk to the allowance. -/
def shown (d : Decoder v) (buf : Buffer) : Buffer :=
  if (d.allowance buf.availOut).2 then
    { buf with dstSize := buf.dstPos + (d.allowance buf.availOut).1 }
  else buf

/-- The checks after the codec's call, on the counters it leaves. -/
def verdict (d : Decoder v) (st : Status) (capped : Bool) (allowed produced : ℕ)
    (unread : Bool) : Verdict :=
  if st = .streamEnd ∧ d.opts.hasExpected ∧ d.totalOut ≠ d.opts.expectedSize then
    .refused .errInvalidData
  else if st = .streamEnd ∧ unread ∧ d.opts.rejectTrailing then .trailing
  else if capped ∧ st = .needOutput ∧ produced = allowed then .refused d.opts.overStatus
  -- input left over with the allowance spent, for codecs that stall on NEED_INPUT
  else if capped ∧ allowed = 0 ∧ st ≠ .streamEnd ∧ unread then .refused d.opts.overStatus
  else if d.opts.maxOutput ≠ 0 ∧ d.opts.maxOutput < d.totalOut then .refused .errOutputLimit
  else if d.opts.hasExpected ∧ d.opts.expectedSize < d.totalOut then .refused .errInvalidData
  else if st ≠ .errOutputLimit ∧ d.opts.maxRatio ≠ 0 ∧ 0 < d.totalOut ∧
      ratioAllowed d.opts.maxRatio d.totalIn < d.totalOut then .refused .errRatioLimit
  else .passed

end Decoder

def Verdict.status (st : Status) : Verdict → Status
  | .refused refusal => refusal
  | .trailing => .errTrailing
  | .passed => st

/-- What a decoder call did: the codec ran and was judged, or it was answered before
reaching the codec. -/
structure Outcome (v : CodecVtable) where
  status : Status
  dec : Decoder v
  buf : Buffer
  refused : Bool

/-- From the codec's result to the caller's: restore the window, count, and judge. -/
def Decoder.settle (d : Decoder v) (buf : Buffer) (r : Status × v.Dec × Buffer) : Outcome v :=
  match r with
  | (st, s, after) =>
    let allowed := (d.allowance buf.availOut).1
    let capped := (d.allowance buf.availOut).2
    let produced := cursorSub after.dstPos buf.dstPos
    let d' := { d with
      state := s
      finished := st == .streamEnd
      totalIn := d.totalIn + UInt64.ofNat (cursorSub after.srcPos buf.srcPos)
      totalOut := d.totalOut + UInt64.ofNat produced }
    let verdict := d'.verdict st capped allowed produced (after.srcPos < after.srcSize)
    { status := verdict.status st
      dec := d'
      buf := if capped then { after with dstSize := buf.dstSize } else after
      refused := match verdict with | .refused _ => true | _ => false }

/-- `zu_decoder_process`, with a note of whether a limit refused the call. -/
def decoderCall (d : Decoder v) (buf : Buffer) (mode : Flush) : Outcome v :=
  if checkBuffer buf ≠ .ok then ⟨checkBuffer buf, d, buf, false⟩
  else if d.finished then
    ⟨if buf.srcPos < buf.srcSize ∧ d.opts.rejectTrailing then .errTrailing else .streamEnd,
      d, buf, false⟩
  else if mode = .flush ∧ ¬ v.can canFlush then ⟨.errUnsupported, d, buf, false⟩
  else d.settle buf (v.decoderProcess d.state (d.shown buf) mode)

def decoderProcess (d : Decoder v) (buf : Buffer) (mode : Flush) :
    Status × Decoder v × Buffer :=
  let r := decoderCall d buf mode
  (r.status, r.dec, r.buf)

def decoderReset (d : Decoder v) (opts : Option DecoderOpts) : Status × Decoder v :=
  let given := opts.getD d.opts
  if checkDecOpts given ≠ .ok then (.errInvalidArgument, d)
  else
    let use := copyDecoderOpts given
    if use.codec ≠ d.opts.codec then (.errInvalidArgument, d)
    else match v.decoderReset with
      | none => (.errUnsupported, d)
      | some reset => match reset d.state use with
        | (.ok, s) => (.ok, { state := s, opts := use, finished := false,
                              totalIn := 0, totalOut := 0 })
        | (st, s) => (st, { d with state := s })

end Zukomp
