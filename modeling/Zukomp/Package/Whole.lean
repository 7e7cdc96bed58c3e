import Zukomp.Core.Whole
import Zukomp.Package.Table

/-! # komp_compress, komp_decompress and komp_detect

The exported functions over whole buffers: the checks of R, the narrowing and the drive loop of C,
and the condition that a status becomes. They run against a registry and a cached table of codecs in
any state that the package can be in.
-/

namespace Zukomp.Package

/-! ## zukomp_r.c -/

def codecInfoSize : UInt32 := 64

def wholeChunk : ℕ := 64 * 1024

/-- The arguments of `zu_int_whole`. -/
structure WholeArgs where
  src : List UInt8
  encode : Bool
  codec : CString
  level : Option (Option ℤ)
  maxOutput : RNumber
  maxRatio : Option ℤ
  decFlags : UInt32

/-- The options that `zu_int_whole` drives the loop with. -/
def WholeArgs.opts (a : WholeArgs) (r : Registry) : Except Status RunOpts :=
  match levelFromSexp a.level, u64FromReal a.maxOutput, u32FromInt a.maxRatio with
  | some level, some maxOutput, some maxRatio =>
    if r.codecLookup a.codec = codecNone then .error .errUnsupported
    else .ok {
      src := a.src, encode := a.encode, codec := r.codecLookup a.codec, level := level
      maxOutput := maxOutput, maxRatio := maxRatio, decFlags := a.decFlags, expectedSize := 0
      inChunk := if a.encode then (if 0 < a.src.length then a.src.length else 1) else wholeChunk
      outChunk := wholeChunk, flushEvery := 0 }
  | _, _, _ => .error .errInvalidArgument

/-- The vtable that the core finds. -/
def vtableOf (r : Registry) (codec : CodecId) : Option CodecVtable :=
  (r.lookup codec).map Registrant.vtable

/-- `zu_int_whole`: the status and the bytes that it returns, if it does. -/
def IntWhole (r : Registry) (a : WholeArgs) (result : Status × List UInt8) : Prop :=
  match a.opts r with
  | .error st => result = (st, [])
  | .ok opts => ∃ out, RunsWhole (vtableOf r) opts .empty (result.1, out) ∧ result.2 = out.used

/-- `ZU_DEC_REJECT_TRAILING | ZU_DEC_CONCAT_MEMBERS` -/
def wholeDecFlags : UInt32 := decRejectTrailing ||| decConcatMembers

def detect (levels : Registrant → AbstractLevels) (r : Registry) (bytes : List UInt8) :
    Option CString :=
  if (r.zuSniff bytes bytes.length).1 ≠ .ok ∨ (r.zuSniff bytes bytes.length).2 = codecNone then none
  else match r.codecGetInfo levels (r.zuSniff bytes bytes.length).2 codecInfoSize with
    | .error _ => none
    | .ok info => info.name

/-! ## compress.R, decompress.R and detect.R -/

variable (levels : Registrant → AbstractLevels)

def kompDetect (r : Registry) (x : RValue) : Except Condition (Option CString) :=
  match checkRaw x with
  | .error c => .error c
  | .ok bytes => .ok (detect levels r bytes)

def detectOrAbort (r : Registry) (bytes : List UInt8) : Except Condition CString :=
  match detect levels r bytes with
  | none => .error { abort .undetectableCodec none with inputBytes := some bytes.length }
  | some codec => .ok codec

/-- The codec to decompress with. -/
def resolveAuto (r : Registry) (bytes : List UInt8) (codec : CString) : Except Condition CString :=
  if codec = auto then detectOrAbort levels r bytes else .ok codec

/-- What `komp_compress` hands to C. -/
def compressArgs (rows : List CodecRow) (x codec level : RValue) : Except Condition WholeArgs := do
  let src ← checkRaw x
  let codec ← checkCodecName rows false codec
  let level ← checkLevel rows codec level
  return ⟨src, true, codec, level, .finite 0, some 0, 0⟩

/-- What `komp_decompress` hands to C. -/
def decompressArgs (r : Registry) (rows : List CodecRow) (x codec maxOutput maxRatio : RValue) :
    Except Condition WholeArgs := do
  let src ← checkRaw x
  let codec ← checkCodecName rows true codec
  let codec ← resolveAuto levels r src codec
  let maxOutput ← checkLimit exactMax codec maxOutput
  let maxRatio ← checkLimit integerMax codec maxRatio
  return ⟨src, false, codec, none, .finite maxOutput, asInteger (.finite maxRatio), wholeDecFlags⟩

/-- The call of C and what `zu_finish` makes of it. -/
def Finishes (r : Registry) (args : Except Condition WholeArgs)
    (res : Except Condition (List UInt8)) : Prop :=
  match args with
  | .error c => res = .error c
  | .ok a => ∃ result, IntWhole r a result ∧ res = finish result a.codec a.src

/-- `komp_compress`: what it returns or raises, if it does. -/
def KompCompresses (r : Registry) (c : TableCache) (x codec level : RValue)
    (res : Except Condition (List UInt8)) : Prop :=
  Finishes r (compressArgs (c.codecTable levels r).1 x codec level) res

/-- `komp_decompress`: what it returns or raises, if it does. -/
def KompDecompresses (r : Registry) (c : TableCache) (x codec maxOutput maxRatio : RValue)
    (res : Except Condition (List UInt8)) : Prop :=
  Finishes r (decompressArgs levels r (c.codecTable levels r).1 x codec maxOutput maxRatio) res

/-- `getOption("zukomp.max_output", 1024^3)`, the default of `max_output`. -/
def maxOutputDefault (option : Option RValue) : RValue :=
  option.getD (.numeric [.finite (1024 ^ 3)])

/-- `getOption("zukomp.max_ratio", NULL)`, the default of `max_ratio`. -/
def maxRatioDefault (option : Option RValue) : RValue := option.getD .null

end Zukomp.Package
