import Zukomp.Core.Stream
import Zukomp.Library.Loop
import Zukomp.Deflate.Engine
import Zukomp.Deflate.Gzip

/-! # The DEFLATE family, codec_deflate.c

One engine, three vtables. `deflateStep` is one turn of the loop in `deflate_process`:
it moves wrapper bytes when the wrapper needs moving and otherwise calls miniz.
-/

namespace Zukomp

open Library

inductive WrapKind where
  | none | zlib | gzip
  deriving DecidableEq

/-- Where the wrapper is, independent of where the engine is. -/
inductive WrapState where
  | header | body | trailer | memberEnd | done
  deriving DecidableEq

structure DeflateState (E : MzStream) where
  mz : E.State
  mzCalled : Bool
  encoder : Bool
  wrap : WrapKind
  state : WrapState
  level : ℤ
  hdr : List UInt8
  hdrLen : ℕ
  hdrPos : ℕ
  tail : List UInt8
  tailLen : ℕ
  tailPos : ℕ
  checksum : UInt32
  uncompressed : UInt64
  gz : GzipHeader
  decFlags : UInt32
  probeMagic : Bool

/-! ## Status mapping -/

def fromMz : MzStatus → Status
  | .ok => .ok
  | .streamEnd => .streamEnd
  | .bufError => .ok
  | .dataError => .errInvalidData
  | .memError => .errMemory
  | .paramError => .errInvalidArgument
  | .streamError => .errInvalidData
  | .needDict => .errUnsupported
  | .errno | .versionError => .errInternal

def toMzFlush : Flush → MzFlush
  | .flush => .syncFlush
  | .finish => .finish
  | .run => .noFlush

/-! ## The zlib wrapper -/

/-- `zu_int_zlib_header`: FLEVEL is advisory, FCHECK makes the word a multiple of 31. -/
def zlibHeader (level : ℤ) : List UInt8 :=
  let flevel : ℕ := if level ≤ 1 then 0 else if level ≤ 5 then 1 else if level = 6 then 2 else 3
  let flg := flevel * 64
  let rem := (0x78 * 256 + flg) % 31
  [0x78, UInt8.ofNat (if rem ≠ 0 then flg + (31 - rem) else flg)]

def zlibCheckHeader (hdr : List UInt8) : Status :=
  let cmf := hdr.getD 0 0
  let flg := hdr.getD 1 0
  if cmf &&& 0x0F ≠ 8 then .errInvalidData
  else if (7 : UInt8) < (cmf >>> 4) &&& 0x0F then .errInvalidData
  else if (cmf.toNat * 256 + flg.toNat) % 31 ≠ 0 then .errInvalidData
  -- a preset dictionary we do not have
  else if flg &&& 0x20 ≠ 0 then .errUnsupported
  else .ok

/-- `zlib_sniff`: a header that needs a dictionary is one. -/
def zlibSniff (bytes : List UInt8) : Bool :=
  if bytes.length < 2 then false
  else zlibCheckHeader bytes = .ok ∨ zlibCheckHeader bytes = .errUnsupported

def checksumInit : WrapKind → UInt32
  | .gzip => mzCrc32 0 []
  | _ => 1

def checksumUpdate (wrap : WrapKind) (v : UInt32) (bytes : List UInt8) : UInt32 :=
  if bytes = [] then v
  else match wrap with
    | .gzip => mzCrc32 v bytes
    | _ => mzAdler32 v bytes

/-! ## Lifecycle -/

def mzDefaultLevel : ℤ := 6

variable {E : MzStream}

/-- The first state of a wrapper. -/
def firstState : WrapKind → WrapState
  | .none => .body
  | _ => .header

def hdrLength : WrapKind → ℕ
  | .none => 0
  | .zlib => 2
  | .gzip => gzipHeaderLen

def tailLength : WrapKind → ℕ
  | .none => 0
  | .zlib => 4
  | .gzip => 8

/-- The header bytes an encoder writes into its state, over what was there. -/
def writeHdr (wrap : WrapKind) (encoder : Bool) (level : ℤ) (hdr : List UInt8) : List UInt8 :=
  match wrap, encoder with
  | .zlib, true => zlibHeader level ++ hdr.drop 2
  | .gzip, true => gzipWriteHeader
  | _, _ => hdr

def deflateNew (E : MzStream) (wrap : WrapKind) (encoder : Bool) (level : ℤ)
    (decFlags : UInt32) : Except Status (DeflateState E) :=
  let level := if level = levelDefault then mzDefaultLevel else level
  match E.init level with
  | (.ok, mz) => .ok
      { mz := mz, mzCalled := false, encoder := encoder, wrap := wrap, state := firstState wrap
        level := level
        hdr := writeHdr wrap encoder level (List.replicate gzipHeaderLen 0)
        hdrLen := hdrLength wrap, hdrPos := 0
        tail := List.replicate 8 0, tailLen := tailLength wrap, tailPos := 0
        checksum := checksumInit wrap, uncompressed := 0, gz := gzipHeaderInit
        decFlags := decFlags, probeMagic := false }
  | (mz, _) => .error (fromMz mz)

/-- `zu_int_deflate_reset`: no level means the level this stream was built with, and only
another level re-initialises the engine. -/
def deflateReset (s : DeflateState E) (level : ℤ) : Status × DeflateState E :=
  let want := if s.encoder ∧ level ≠ levelDefault then level else s.level
  match (if s.encoder ∧ want ≠ s.level then E.init want else E.reset s.mz) with
  | (.ok, mz) => (.ok, { s with
      mz := mz, level := want, mzCalled := false
      checksum := checksumInit s.wrap, uncompressed := 0, hdrPos := 0, tailPos := 0
      probeMagic := false, state := firstState s.wrap
      hdr := writeHdr s.wrap s.encoder want s.hdr
      gz := if s.wrap = .gzip ∧ s.encoder = false then gzipHeaderInit else s.gz })
  | (st, mz) => (fromMz st, { s with mz := mz })

/-! ## Process -/

/-- The result of one turn: another turn, or what `deflate_process` returns. -/
abbrev Next (E : MzStream) := DeflateState E × Window ⊕ Status × DeflateState E × Window

/-- What the wrapper's parsers answer when a byte is missing. -/
def missing (mode : Flush) : Status := if mode = .finish then .errTruncated else .needInput

def headerStep (s : DeflateState E) (w : Window) (mode : Flush) : Next E :=
  if s.encoder then
    if s.hdrPos < s.hdrLen then
      if w.room = 0 then .inr (.needOutput, s, w)
      else .inl ({ s with hdrPos := s.hdrPos + 1 }, w.put [s.hdr.getD s.hdrPos 0])
    else .inl ({ s with state := .body }, w)
  else if s.wrap = .gzip then
    match w.input with
    | [] => .inr (missing mode, s, w)
    | b :: _ => match s.gz.feed b with
      | (.ok, true, gz) => .inl ({ s with gz := gz, state := .body }, w.take 1)
      | (.ok, false, gz) => .inl ({ s with gz := gz }, w.take 1)
      | (st, _, gz) => .inr (st, { s with gz := gz }, w.take 1)
  else if s.hdrPos < s.hdrLen then
    match w.input with
    | [] => .inr (missing mode, s, w)
    | b :: _ => .inl ({ s with hdr := s.hdr.set s.hdrPos b, hdrPos := s.hdrPos + 1 }, w.take 1)
  else if zlibCheckHeader s.hdr ≠ .ok then .inr (zlibCheckHeader s.hdr, s, w)
  else .inl ({ s with state := .body }, w)

/-- What fits miniz's 32-bit `avail_in` and `avail_out`. -/
def mzClamp : ℕ := 0x7FFFFFFF

/-- `mz_inflate` fails for good when its first call is under `MZ_FINISH` and the output
does not fit, so the first call of a decoder never is. -/
def engineFlush (s : DeflateState E) (mode : Flush) : MzFlush :=
  if s.encoder = false ∧ s.mzCalled = false ∧ toMzFlush mode = .finish then .syncFlush
  else toMzFlush mode

/-- The call of the engine in the body. -/
def engineCall (s : DeflateState E) (w : Window) (mode : Flush) : MzStep E.State :=
  E.process s.mz (w.input.take mzClamp) (min w.room mzClamp) (engineFlush s mode)

/-- The checksum runs over uncompressed bytes, the input of an encoder and the output of
a decoder. -/
def covered (s : DeflateState E) (w : Window) (r : MzStep E.State) : List UInt8 :=
  if s.encoder then w.input.take r.used else r.out

/-- The state after a call of the engine. -/
def afterEngine (s : DeflateState E) (w : Window) (r : MzStep E.State) : DeflateState E :=
  let s := { s with mz := r.state, mzCalled := true }
  if s.wrap = .none then s
  else { s with
    checksum := checksumUpdate s.wrap s.checksum (covered s w r)
    uncompressed := s.uncompressed + UInt64.ofNat (covered s w r).length }

/-- Adler-32 big-endian, or CRC-32 and ISIZE little-endian. -/
def trailerBytes (wrap : WrapKind) (checksum : UInt32) (uncompressed : UInt64) : List UInt8 :=
  match wrap with
  | .zlib => be32 checksum
  | _ => le32 checksum ++ le32 uncompressed.toUInt32

/-- The trailer comes next; an encoder has it ready. -/
def enterTrailer (s : DeflateState E) : DeflateState E :=
  { s with
    tail := if s.encoder then
        trailerBytes s.wrap s.checksum s.uncompressed ++ s.tail.drop s.tailLen
      else s.tail
    tailPos := 0
    state := .trailer }

/-- miniz could not move: decide why. Nowhere to write is not the same as nothing to read,
and under `ZU_FINISH` nothing to read is a short input. -/
def stalled (s : DeflateState E) (w : Window) (mode : Flush) : Status :=
  if w.room = 0 then .needOutput
  else if w.input = [] then
    if mode ≠ .finish then .needInput else if s.encoder then .errInternal else .errInvalidData
  else .needOutput

def bodyStep (s : DeflateState E) (w : Window) (mode : Flush) : Next E :=
  if w.room = 0 ∧ s.encoder then .inr (.needOutput, s, w)
  else
    let r := engineCall s w mode
    let s := afterEngine s w r
    let w' := (w.take r.used).put r.out
    if r.status = .streamEnd then
      if s.wrap ≠ .none then
        .inl (enterTrailer s, w')
      else .inr (.streamEnd, { s with state := .done }, w')
    else if r.status ≠ .ok ∧ r.status ≠ .bufError then .inr (fromMz r.status, s, w')
    else if r.used = 0 ∧ r.out = [] then .inr (stalled s w' mode, s, w')
    else .inl (s, w')

/-- The end of the last member. A held 0x1F is a trailing byte that `src_pos` can no longer
express, so the codec applies the policy itself. -/
def finishMember (s : DeflateState E) (w : Window) : Next E :=
  let s := { s with state := .done }
  if s.probeMagic then
    .inr (if s.decFlags &&& decRejectTrailing ≠ 0 then .errTrailing else .streamEnd,
      { s with probeMagic := false }, w)
  else .inr (.streamEnd, s, w)

/-- Start the next member, handing a magic byte consumed earlier to the new header. -/
def nextMember (s : DeflateState E) (w : Window) (held : Bool) : Next E :=
  match deflateReset s levelDefault with
  | (.ok, s) =>
    if held then
      match s.gz.feed 0x1F with
      | (.ok, _, gz) => .inl ({ s with gz := gz, probeMagic := false }, w)
      | (st, _, gz) => .inr (st, { s with gz := gz, probeMagic := false }, w)
    else .inl (s, w)
  | (st, s) => .inr (st, s, w)

def concatenates (s : DeflateState E) : Bool :=
  s.wrap = .gzip ∧ s.decFlags &&& decConcatMembers ≠ 0 ∧ s.encoder = false

def memberEndStep (s : DeflateState E) (w : Window) (mode : Flush) : Next E :=
  match w.input with
  | [] =>
    if s.encoder = false ∧ concatenates s ∧ mode ≠ .finish then .inr (.needInput, s, w)
    else finishMember s w
  | b :: rest =>
    if concatenates s = false then finishMember s w
    else if s.probeMagic = false then
      if b ≠ 0x1F then .inr (.streamEnd, { s with state := .done }, w)
      else match rest with
        | c :: _ =>
          if c ≠ 0x8B then .inr (.streamEnd, { s with state := .done }, w)
          else nextMember s w false
        | [] =>
          if mode = .finish then .inr (.streamEnd, { s with state := .done }, w)
          -- one byte, more may follow: hold it so that the caller refills
          else .inr (.needInput, { s with probeMagic := true }, w.take 1)
    else if b ≠ 0x8B then .inr (.streamEnd, { s with probeMagic := false, state := .done }, w)
    else nextMember s w true

/-- The trailer a decoder has read, against what it has decoded. -/
def checkTail (s : DeflateState E) : Status :=
  if s.wrap = .zlib then if readBE s.tail ≠ s.checksum then .errChecksum else .ok
  else if readLE s.tail ≠ s.checksum then .errChecksum
  else if readLE (s.tail.drop 4) ≠ s.uncompressed.toUInt32 then .errChecksum
  else .ok

def trailerStep (s : DeflateState E) (w : Window) (mode : Flush) : Next E :=
  if s.encoder then
    if s.tailPos < s.tailLen then
      if w.room = 0 then .inr (.needOutput, s, w)
      else .inl ({ s with tailPos := s.tailPos + 1 }, w.put [s.tail.getD s.tailPos 0])
    else .inr (.streamEnd, { s with state := .done }, w)
  else if s.tailPos < s.tailLen then
    match w.input with
    | [] => .inr (missing mode, s, w)
    | b :: _ => .inl ({ s with tail := s.tail.set s.tailPos b, tailPos := s.tailPos + 1 }, w.take 1)
  else if checkTail s ≠ .ok then .inr (checkTail s, s, w)
  else .inl ({ s with state := .memberEnd }, w)

def deflateStep (mode : Flush) (x : DeflateState E × Window) : Next E :=
  match x.1.state with
  | .done => .inr (.streamEnd, x.1, x.2)
  | .header => headerStep x.1 x.2 mode
  | .body => bodyStep x.1 x.2 mode
  | .memberEnd => memberEndStep x.1 x.2 mode
  | .trailer => trailerStep x.1 x.2 mode

/-- Turns that move no byte only go from a state to one of lower rank. -/
def stateRank (s : DeflateState E) : ℕ :=
  match s.state with
  | .header => if s.wrap = .gzip ∧ s.encoder = false then 0 else 4
  | .body => 3
  | .trailer => 2
  | .memberEnd => 1
  | .done => 0

def deflateMeasure (x : DeflateState E × Window) : ℕ :=
  8 * (x.2.input.length + x.2.room) + stateRank x.1

def deflateProcess (s : DeflateState E) (w : Window) (mode : Flush) :
    Status × DeflateState E × Window :=
  runLoop (deflateStep mode) (fun x => (.errInternal, x.1, x.2)) (deflateMeasure (s, w) + 1) (s, w)

/-! ## Vtables -/

/-- The two directions of miniz. -/
structure Miniz where
  deflate : MzStream
  inflate : MzStream

def codecDeflateRaw : CodecId := 2
def codecZlib : CodecId := 3
def codecGzip : CodecId := 4

def deflateVtable (M : Miniz) (codec : CodecId) (wrap : WrapKind) : CodecVtable where
  codec := codec
  levelMin := 0
  levelMax := 9
  levelDefault := mzDefaultLevel
  flags := canEncode ||| canDecode ||| canFlush
  Enc := DeflateState M.deflate
  Dec := DeflateState M.inflate
  encoderNew o := deflateNew M.deflate wrap true o.level 0
  encoderProcess := onBuffer deflateProcess
  encoderReset := some fun s o => deflateReset s o.level
  decoderNew o := deflateNew M.inflate wrap false levelDefault o.flags
  decoderProcess := onBuffer deflateProcess
  decoderReset := some fun s o => deflateReset { s with decFlags := o.flags } levelDefault

theorem deflateVtable_encodes (M : Miniz) (codec : CodecId) (wrap : WrapKind) :
    (deflateVtable M codec wrap).encoderProcess = onBuffer deflateProcess := rfl

theorem deflateVtable_decodes (M : Miniz) (codec : CodecId) (wrap : WrapKind) :
    (deflateVtable M codec wrap).decoderProcess = onBuffer deflateProcess := rfl

def deflateRawCodec (M : Miniz) : CodecVtable := deflateVtable M codecDeflateRaw .none
def zlibCodec (M : Miniz) : CodecVtable := deflateVtable M codecZlib .zlib
def gzipCodec (M : Miniz) : CodecVtable := deflateVtable M codecGzip .gzip

end Zukomp
