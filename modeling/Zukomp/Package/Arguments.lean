import Zukomp.Core.Listing
import Zukomp.Core.Sniff

/-! # Argument checks, compress.R and conditions.R

The checks that run before any C code, and the narrowing of what they pass on to the types of the
C side. A limit is narrowed to the number that was asked for or refused; only `NULL`, `Inf` and 0
lift it.
-/

namespace Zukomp.Package

/-! ## Values -/

/-- An element of a numeric vector. `is.na` is true of `NaN` too. -/
inductive RNumber where
  | na
  | inf (negative : Bool)
  | finite (q : ℚ)

/-- An R value as far as the checks look at it; an element of a character vector that is `NA` is
`none`. -/
inductive RValue where
  | null
  | raw (bytes : List UInt8)
  | numeric (xs : List RNumber)
  | character (xs : List (Option CString))
  | other

/-- `trunc`, toward zero. -/
def truncate (q : ℚ) : ℤ := if 0 ≤ q then ⌊q⌋ else ⌈q⌉

def integerMax : ℤ := 2147483647

def exactMax : ℕ := 9007199254740992

/-- `as.integer` of one number, `NA` as `none`. -/
def asInteger : RNumber → Option ℤ
  | .finite q => if truncate q < -integerMax ∨ integerMax < truncate q then none else truncate q
  | .na | .inf _ => none

/-! ## Conditions -/

/-- The class of a `zukomp_error`, or `simpleError` of R itself. -/
inductive ConditionClass where
  | invalidArgument | unsupportedCodec | invalidData | truncated | checksumError | trailingBytes
  | memoryError | outputLimit | ratioLimit | internalError | undetectableCodec | simpleError
  deriving DecidableEq

/-- What is raised, `NA` as `none`. -/
structure Condition where
  conditionClass : ConditionClass
  codec : Option CString
  inputBytes : Option ℕ
  outputBytes : Option ℕ
  nativeStatus : Option Status

/-- `zukomp_abort` with the defaults of the byte counts and the status. -/
def abort (c : ConditionClass) (codec : Option CString) : Condition := ⟨c, codec, none, none, none⟩

/-- An `if` on `NA`. -/
def missingCondition : Condition := ⟨.simpleError, none, none, none, none⟩

def statusClass : Status → Option ConditionClass
  | .errInvalidArgument => some .invalidArgument
  | .errUnsupported => some .unsupportedCodec
  | .errInvalidData => some .invalidData
  | .errTruncated => some .truncated
  | .errChecksum => some .checksumError
  | .errTrailing => some .trailingBytes
  | .errMemory => some .memoryError
  | .errOutputLimit => some .outputLimit
  | .errRatioLimit => some .ratioLimit
  | .errInternal => some .internalError
  | .ok | .needInput | .needOutput | .streamEnd => none

def abortStatus (st : Status) (codec : Option CString) (inputBytes outputBytes : ℕ) : Condition :=
  match statusClass st with
  | none => { abort .internalError codec with nativeStatus := some st }
  | some c => ⟨c, codec, some inputBytes, some outputBytes, some st⟩

def finish (res : Status × List UInt8) (codec : CString) (input : List UInt8) :
    Except Condition (List UInt8) :=
  if res.1 ≠ .ok ∧ res.1 ≠ .streamEnd then
    .error (abortStatus res.1 codec input.length res.2.length)
  else .ok res.2

/-! ## The checks -/

def checkRaw : RValue → Except Condition (List UInt8)
  | .raw bytes => .ok bytes
  | .null | .numeric _ | .character _ | .other => .error (abort .invalidArgument none)

def auto : CString := cstring ['a', 'u', 't', 'o']

/-- The rows of the capability table for one name. -/
def rowsOf (rows : List CodecRow) (codec : CString) : List CodecRow :=
  rows.filter fun row => row.id = some codec

/-- `zu_check_codec_name`; a name has at most one row. -/
def checkCodecName (rows : List CodecRow) (allowAuto : Bool) :
    RValue → Except Condition CString
  | .character [some codec] =>
    if codec = auto then
      if allowAuto then .ok codec else .error (abort .invalidArgument none)
    else match rowsOf rows codec with
      | [] => .error (abort .unsupportedCodec codec)
      | row :: _ =>
        if row.available then .ok codec else .error (abort .unsupportedCodec codec)
  | _ => .error (abort .invalidArgument none)

def fastName : CString := cstring ['f', 'a', 's', 't']
def defaultName : CString := cstring ['d', 'e', 'f', 'a', 'u', 'l', 't']
def bestName : CString := cstring ['b', 'e', 's', 't']

/-- `zu_level_from_name`, to `NULL` or one integer that may be `NA`. -/
def levelFromName (rows : List CodecRow) (codec : CString) (level : List (Option CString)) :
    Except Condition (Option (Option ℤ)) :=
  match level with
  | [some name] =>
    if name ≠ fastName ∧ name ≠ defaultName ∧ name ≠ bestName then .error (abort .invalidArgument codec)
    else match rowsOf rows codec with
      | [row] =>
        if row.levelMin.isNone then .ok none
        else if name = defaultName then .ok none
        else if name = fastName then .ok (some row.levelFast)
        else .ok (some row.levelBest)
      | _ => .ok none
  | _ => .error (abort .invalidArgument codec)

/-- The end of `zu_check_level`, on a whole number. -/
def checkLevelRange (rows : List CodecRow) (codec : CString) (level : ℤ) : Except Condition ℤ :=
  match rowsOf rows codec with
  | [row] =>
    match row.levelMin, row.levelMax with
    | some lo, some hi =>
      if level < lo ∨ hi < level then .error (abort .invalidArgument codec) else .ok level
    | some lo, none =>
      .error (if level < lo then abort .invalidArgument codec else missingCondition)
    | none, _ => if level ≠ 0 then .error (abort .invalidArgument codec) else .ok level
  | _ => .ok level

def checkLevel (rows : List CodecRow) (codec : CString) :
    RValue → Except Condition (Option (Option ℤ))
  | .null => .ok none
  | .character names => levelFromName rows codec names
  | .numeric [.finite q] =>
    if q ≠ truncate q ∨ integerMax < q ∨ q < -integerMax then
      .error (abort .invalidArgument codec)
    else match asInteger (.finite q) with
      | some level => (checkLevelRange rows codec level).map fun level => some (some level)
      | none => .error (abort .invalidArgument codec)
  | _ => .error (abort .invalidArgument codec)

/-- `zu_check_limit`, to the double that it returns. -/
def checkLimit (upper : ℚ) (codec : Option CString) : RValue → Except Condition ℚ
  | .null => .ok 0
  | .numeric [.finite q] =>
    if q < 0 ∨ q ≠ truncate q then .error (abort .invalidArgument codec)
    else if upper < q then .error (abort .invalidArgument codec)
    else .ok q
  | .numeric [.inf false] => .ok 0
  | _ => .error (abort .invalidArgument codec)

/-! ## Narrowing, zukomp_r.c -/

def levelFromSexp : Option (Option ℤ) → Option ℤ
  | none => some levelDefault
  | some level => level

def u64FromReal : RNumber → Option UInt64
  | .finite q =>
    if q < 0 ∨ (exactMax : ℚ) < q then none
    else
      let narrowed := UInt64.ofNat ⌊q⌋.toNat
      if (narrowed.toNat : ℚ) ≠ q then none else some narrowed
  | .na | .inf _ => none

def u32FromInt : Option ℤ → Option UInt32
  | none => none
  | some v => if v < 0 then none else some (UInt32.ofNat v.toNat)

/-! ## Limits -/

/-- What a limit argument asks for: a number of it, or no limit. -/
inductive Asks : RValue → ℕ → Prop
  | null : Asks .null 0
  | inf : Asks (.numeric [.inf false]) 0
  | number (n : ℕ) : Asks (.numeric [.finite n]) n

theorem truncate_natCast (n : ℕ) : truncate n = n := by
  rw [truncate, if_pos (Nat.cast_nonneg n)]
  exact Int.floor_natCast n

theorem eq_natCast_of_truncate {q : ℚ} (hpos : 0 ≤ q) (h : q = truncate q) : ∃ n : ℕ, q = n := by
  rw [truncate, if_pos hpos] at h
  obtain ⟨n, hn⟩ := Int.eq_ofNat_of_zero_le (Int.floor_nonneg.mpr hpos)
  exact ⟨n, by rw [h, hn]; rfl⟩

/-- A limit is passed on if it is a whole number up to the bound or lifted, and as it is. -/
theorem checkLimit_eq {upper : ℚ} (hupper : 0 ≤ upper) {codec : Option CString} {x : RValue} {q : ℚ} :
    checkLimit upper codec x = .ok q ↔ ∃ n : ℕ, Asks x n ∧ n ≤ upper ∧ q = n := by
  constructor
  · intro h
    unfold checkLimit at h
    split at h
    · cases h
      exact ⟨0, .null, by simpa, by simp⟩
    · split_ifs at h with hbad hover
      cases h
      rw [not_or, not_lt, not_not] at hbad
      obtain ⟨n, rfl⟩ := eq_natCast_of_truncate hbad.1 hbad.2
      exact ⟨n, .number n, not_lt.mp hover, rfl⟩
    · cases h
      exact ⟨0, .inf, by simpa, by simp⟩
    · cases h
  · rintro ⟨n, hasks, hle, rfl⟩
    cases hasks with
    | null => simp [checkLimit]
    | inf => simp [checkLimit]
    | number =>
      rw [checkLimit, truncate_natCast, if_neg (by simp), if_neg (not_lt.mpr hle)]

theorem u64FromReal_natCast {n : ℕ} (h : n ≤ exactMax) :
    u64FromReal (.finite n) = some (UInt64.ofNat n) := by
  have hle : (n : ℚ) ≤ exactMax := by exact_mod_cast h
  have hnarrow : (UInt64.ofNat ⌊(n : ℚ)⌋.toNat).toNat = n := by
    rw [Int.floor_natCast, Int.toNat_natCast, UInt64.toNat_ofNat']
    exact Nat.mod_eq_of_lt (by rw [exactMax] at h; omega)
  rw [u64FromReal, if_neg (by simp [not_lt.mpr hle])]
  dsimp only
  rw [hnarrow, if_neg (by simp), Int.floor_natCast, Int.toNat_natCast]

theorem u32FromInt_natCast {n : ℕ} (h : n ≤ integerMax) :
    u32FromInt (asInteger (.finite n)) = some (UInt32.ofNat n) := by
  rw [asInteger, truncate_natCast, if_neg (by rw [integerMax] at *; omega), u32FromInt,
    if_neg (by omega), Int.toNat_natCast]

end Zukomp.Package
