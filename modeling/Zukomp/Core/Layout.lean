import Zukomp.Core.Renewal

/-! # Options structs in memory, zu_stream.c

A caller's struct may be shorter than the library's. Everything past the fields that were always
there is read from a copy that has the caller's bytes, as many as it declares, and zeros.
-/

namespace Zukomp

open Library

/-- The bytes from a struct's address on. -/
abbrev Memory := ℕ → UInt8

namespace Memory

/-- The number in the `n` bytes at `offset`, the low byte first. -/
def le (m : Memory) (offset : ℕ) : ℕ → ℕ
  | 0 => 0
  | n + 1 => (m offset).toNat + 256 * le m (offset + 1) n

def u32 (m : Memory) (offset : ℕ) : UInt32 := UInt32.ofNat (m.le offset 4)
def i32 (m : Memory) (offset : ℕ) : ℤ := (m.u32 offset).toInt32.toInt
def u64 (m : Memory) (offset : ℕ) : UInt64 := UInt64.ofNat (m.le offset 8)

/-- `struct_size` comes first in either struct. -/
def structSize (m : Memory) : UInt32 := m.u32 0

/-- `zu_int_copy_opts`, into a struct of `dstSize` bytes -/
def copyOpts (dstSize : UInt32) (src : Memory) (srcSize : UInt32) : Memory := fun i =>
  let n := min srcSize.toNat dstSize.toNat
  if i < 4 then UInt8.ofNat (dstSize.toNat / 256 ^ i)
  else if i < n then src i
  else 0

/-- The two structs agree on the bytes that the first declares, as far as the library's has them. -/
def Agree (dstSize : UInt32) (m m' : Memory) : Prop :=
  ∀ i < min m.structSize.toNat dstSize.toNat, m i = m' i

theorem le_congr {m m' : Memory} {offset n : ℕ} (h : ∀ i < n, m (offset + i) = m' (offset + i)) :
    m.le offset n = m'.le offset n := by
  induction n generalizing offset with
  | zero => rfl
  | succ n ih =>
    rw [le, le, ← Nat.add_zero offset, h 0 (Nat.succ_pos n), Nat.add_zero, ih]
    intro i hi
    rw [Nat.add_assoc, Nat.add_comm 1]
    exact h (i + 1) (by omega)

theorem u32_congr {m m' : Memory} {offset : ℕ}
    (h : ∀ i < 4, m (offset + i) = m' (offset + i)) : m.u32 offset = m'.u32 offset :=
  congrArg UInt32.ofNat (le_congr h)

theorem le_cut (m : Memory) (offset k n : ℕ) :
    le (fun i => if i < offset + k then m i else 0) offset n = m.le offset n % 256 ^ k := by
  induction n generalizing offset k with
  | zero => simp [le]
  | succ n ih =>
    cases k with
    | zero =>
      have hzero : ∀ offset' n, offset ≤ offset' →
          le (fun i => if i < offset then m i else 0) offset' n = 0 := by
        intro offset' n
        induction n generalizing offset' with
        | zero => exact fun _ => rfl
        | succ n ihn =>
          intro hle
          simp [le, not_lt.mpr hle, ihn (offset' + 1) (by omega)]
      rw [Nat.add_zero, hzero offset (n + 1) le_rfl, pow_zero, Nat.mod_one]
    | succ k =>
      have hnext := ih (offset + 1) k
      rw [show offset + 1 + k = offset + (k + 1) by omega] at hnext
      have hbyte : (m offset).toNat < 256 := (m offset).toNat_lt
      rw [le, hnext, if_pos (by omega), le, pow_succ', Nat.mod_mul]
      rw [Nat.add_mul_mod_self_left, Nat.mod_eq_of_lt hbyte, Nat.add_mul_div_left _ _ (by decide),
        Nat.div_eq_of_lt hbyte, Nat.zero_add]

end Memory

def EncoderOpts.read (m : Memory) : EncoderOpts where
  structSize := m.structSize
  codec := m.u32 4
  level := m.i32 8
  flags := m.u32 12

def DecoderOpts.read (m : Memory) : DecoderOpts where
  structSize := m.structSize
  codec := m.u32 4
  maxOutput := m.u64 8
  maxRatio := m.u32 16
  flags := m.u32 20
  expectedSize := m.u64 24

/-! ## The four entry points -/

variable {v : CodecVtable}

/-- `zu_encoder_new` -/
def encoderNewAt (lookup : CodecId → Option CodecVtable) (opts : Memory) :
    Except Status (Σ v, Encoder v) :=
  if opts.structSize < encoderOptsSize then .error .errInvalidArgument
  else match resolve lookup (opts.u32 4) canEncode with
    | .error st => .error st
    | .ok v =>
      if checkLevel v (opts.i32 8) ≠ .ok then .error (checkLevel v (opts.i32 8))
      else
        let copy := EncoderOpts.read (opts.copyOpts encoderOptsSize opts.structSize)
        match v.encoderNew copy with
        | .error st => .error st
        | .ok state => .ok ⟨v, { state := state, opts := copy, finished := false }⟩

/-- `zu_encoder_reset` to options that the caller gives -/
def encoderResetAt (e : Encoder v) (opts : Memory) : Status × Encoder v :=
  if opts.structSize < encoderOptsSize then (.errInvalidArgument, e)
  else
    let use := EncoderOpts.read (opts.copyOpts encoderOptsSize opts.structSize)
    if use.codec ≠ e.opts.codec then (.errInvalidArgument, e)
    else if checkLevel v use.level ≠ .ok then (checkLevel v use.level, e)
    else match v.encoderReset with
      | none => (.errUnsupported, e)
      | some reset => match reset e.state use with
        | (.ok, s) => (.ok, { state := s, opts := use, finished := false })
        | (st, s) => (st, { e with state := s })

/-- `zu_int_check_dec_opts` -/
def checkDecOptsAt (opts : Memory) : Status :=
  if opts.structSize < decoderOptsRequiredSize then .errInvalidArgument
  else if opts.u32 20 &&& decExpectedSize ≠ 0 ∧ opts.structSize < decoderOptsSize then
    .errInvalidArgument
  else .ok

/-- `zu_decoder_new` -/
def decoderNewAt (lookup : CodecId → Option CodecVtable) (opts : Memory) :
    Except Status (Σ v, Decoder v) :=
  if checkDecOptsAt opts ≠ .ok then .error .errInvalidArgument
  else match resolve lookup (opts.u32 4) canDecode with
    | .error st => .error st
    | .ok v =>
      let copy := DecoderOpts.read (opts.copyOpts decoderOptsSize opts.structSize)
      match v.decoderNew copy with
      | .error st => .error st
      | .ok state => .ok ⟨v, { state := state, opts := copy, finished := false
                               totalIn := 0, totalOut := 0 }⟩

/-- `zu_decoder_reset` to options that the caller gives -/
def decoderResetAt (d : Decoder v) (opts : Memory) : Status × Decoder v :=
  if checkDecOptsAt opts ≠ .ok then (.errInvalidArgument, d)
  else
    let use := DecoderOpts.read (opts.copyOpts decoderOptsSize opts.structSize)
    if use.codec ≠ d.opts.codec then (.errInvalidArgument, d)
    else match v.decoderReset with
      | none => (.errUnsupported, d)
      | some reset => match reset d.state use with
        | (.ok, s) => (.ok, { state := s, opts := use, finished := false, totalIn := 0
                              totalOut := 0 })
        | (st, s) => (st, { d with state := s })

/-! ## The copy -/

namespace Memory

variable {m m' : Memory} {size : UInt32}

theorem copyOpts_low {i : ℕ} (hi : 4 ≤ i) (hn : i < min m.structSize.toNat size.toNat) :
    m.copyOpts size m.structSize i = m i := by
  rw [copyOpts, if_neg (by omega), if_pos hn]

/-- A field within what the struct declares is copied. -/
theorem u32_copyOpts {offset : ℕ} (hoff : 4 ≤ offset)
    (hn : offset + 4 ≤ min m.structSize.toNat size.toNat) :
    (m.copyOpts size m.structSize).u32 offset = m.u32 offset :=
  u32_congr fun i hi => copyOpts_low (by omega) (by omega)

theorem u64_copyOpts {offset : ℕ} (hoff : 4 ≤ offset)
    (hn : offset + 8 ≤ min m.structSize.toNat size.toNat) :
    (m.copyOpts size m.structSize).u64 offset = m.u64 offset :=
  congrArg UInt64.ofNat (le_congr fun i hi => copyOpts_low (by omega) (by omega))

theorem encoder_size_le (h : encoderOptsSize ≤ m.structSize) :
    16 ≤ min m.structSize.toNat encoderOptsSize.toNat :=
  le_min (UInt32.le_iff_toNat_le.mp h) le_rfl

theorem decoder_size_le (h : decoderOptsRequiredSize ≤ m.structSize) :
    24 ≤ min m.structSize.toNat decoderOptsSize.toNat :=
  le_min (UInt32.le_iff_toNat_le.mp h) (by decide)

/-- The copy depends on what the struct declares only. -/
theorem Agree.copy (h : Agree size m m') (hsize : 4 ≤ min m.structSize.toNat size.toNat) :
    m.structSize = m'.structSize ∧
      m.copyOpts size m.structSize = m'.copyOpts size m'.structSize := by
  have hstruct : m.structSize = m'.structSize := u32_congr fun i hi => by
    rw [Nat.zero_add]
    exact h i (by omega)
  refine ⟨hstruct, funext fun i => ?_⟩
  unfold copyOpts
  rw [← hstruct]
  dsimp only
  by_cases hlow : i < 4
  · rw [if_pos hlow, if_pos hlow]
  rw [if_neg hlow, if_neg hlow]
  by_cases hn : i < min m.structSize.toNat size.toNat
  · rw [if_pos hn, if_pos hn]
    exact h i hn
  · rw [if_neg hn, if_neg hn]

theorem Agree.u32 (h : Agree size m m') {offset : ℕ}
    (hn : offset + 4 ≤ min m.structSize.toNat size.toNat) : m.u32 offset = m'.u32 offset :=
  u32_congr fun i hi => h (offset + i) (by omega)

end Memory

theorem EncoderOpts.read_copy {m : Memory} (h : encoderOptsSize ≤ m.structSize) :
    EncoderOpts.read (m.copyOpts encoderOptsSize m.structSize) =
      copyEncoderOpts (EncoderOpts.read m) := by
  have hn := Memory.encoder_size_le h
  unfold read copyEncoderOpts
  rw [Memory.u32_copyOpts (by omega) (by omega), Memory.u32_copyOpts (by omega) (by omega),
    Memory.i32, Memory.u32_copyOpts (by omega) (by omega)]
  rfl

theorem Memory.le_lt (m : Memory) (offset n : ℕ) : m.le offset n < 256 ^ n := by
  induction n generalizing offset with
  | zero => simp [le]
  | succ n ih =>
    have hbyte : (m offset).toNat < 256 := (m offset).toNat_lt
    have hrest := ih (offset + 1)
    rw [le, pow_succ]
    omega

theorem DecoderOpts.read_copy {m : Memory} (h : decoderOptsRequiredSize ≤ m.structSize) :
    DecoderOpts.read (m.copyOpts decoderOptsSize m.structSize) =
      copyDecoderOpts (DecoderOpts.read m) := by
  have hn := Memory.decoder_size_le h
  have hsize : decoderOptsSize.toNat = 32 := rfl
  have hreq : decoderOptsRequiredSize.toNat = 24 := rfl
  set covered := min 8 (m.structSize.toNat - 24) with hcovered
  have hcut : (m.copyOpts decoderOptsSize m.structSize).le 24 8 = m.le 24 8 % 256 ^ covered := by
    rw [← Memory.le_cut]
    refine Memory.le_congr fun i hi => ?_
    unfold Memory.copyOpts
    dsimp only
    rw [if_neg (by omega)]
    by_cases hin : 24 + i < 24 + covered
    · rw [if_pos hin, if_pos (by omega)]
    · rw [if_neg hin, if_neg (by omega)]
  have hread : (m.u64 24).toNat = m.le 24 8 :=
    Nat.mod_eq_of_lt ((m.le_lt 24 8).trans_le (by norm_num))
  have hexpected : (m.copyOpts decoderOptsSize m.structSize).u64 24 =
      UInt64.ofNat ((m.u64 24).toNat % 2 ^ (8 * covered)) := by
    rw [hread, pow_mul]
    exact congrArg UInt64.ofNat hcut
  unfold read copyDecoderOpts
  rw [Memory.u32_copyOpts (by omega) (by omega), Memory.u64_copyOpts (by omega) (by omega),
    Memory.u32_copyOpts (by omega) (by omega), Memory.u32_copyOpts (by omega) (by omega), hexpected]
  rfl

/-! ## The entry points over fields -/

theorem encoderNewAt_eq (lookup : CodecId → Option CodecVtable) (m : Memory) :
    encoderNewAt lookup m = encoderNew lookup (EncoderOpts.read m) := by
  unfold encoderNewAt encoderNew
  by_cases hsize : m.structSize < encoderOptsSize
  · rw [if_pos hsize]
    exact (if_pos hsize).symm
  · rw [EncoderOpts.read_copy (UInt32.not_lt.mp hsize)]
    rfl

theorem encoderResetAt_eq (e : Encoder v) (m : Memory) :
    encoderResetAt e m = encoderReset e (some (EncoderOpts.read m)) := by
  unfold encoderResetAt encoderReset
  by_cases hsize : m.structSize < encoderOptsSize
  · rw [if_pos hsize]
    exact (if_pos hsize).symm
  · rw [EncoderOpts.read_copy (UInt32.not_lt.mp hsize)]
    rfl

theorem checkDecOptsAt_eq (m : Memory) :
    checkDecOptsAt m = checkDecOpts (DecoderOpts.read m) := by
  unfold checkDecOptsAt checkDecOpts DecoderOpts.hasExpected
  simp only [bne_iff_ne]
  rfl

theorem checkDecOptsAt_ok {m : Memory} (h : checkDecOptsAt m = .ok) :
    decoderOptsRequiredSize ≤ m.structSize := by
  unfold checkDecOptsAt at h
  split_ifs at h with hsize
  exact UInt32.not_lt.mp hsize

theorem decoderNewAt_eq (lookup : CodecId → Option CodecVtable) (m : Memory) :
    decoderNewAt lookup m = decoderNew lookup (DecoderOpts.read m) := by
  unfold decoderNewAt decoderNew
  rw [← checkDecOptsAt_eq]
  by_cases hcheck : checkDecOptsAt m = .ok
  · rw [DecoderOpts.read_copy (checkDecOptsAt_ok hcheck)]
    rfl
  · rw [if_pos hcheck, if_pos hcheck]

theorem decoderResetAt_eq (d : Decoder v) (m : Memory) :
    decoderResetAt d m = decoderReset d (some (DecoderOpts.read m)) := by
  unfold decoderResetAt decoderReset
  simp only [Option.getD_some]
  rw [← checkDecOptsAt_eq]
  by_cases hcheck : checkDecOptsAt m = .ok
  · rewrite [DecoderOpts.read_copy (checkDecOptsAt_ok hcheck)]
    rfl
  · rw [if_pos hcheck, if_pos hcheck]

/-! ## What is not declared is not read -/

variable {lookup : CodecId → Option CodecVtable} {m m' : Memory}

theorem encoderNewAt_agree (hsize : encoderOptsSize ≤ m.structSize)
    (h : Memory.Agree encoderOptsSize m m') :
    encoderNewAt lookup m = encoderNewAt lookup m' := by
  have hn := Memory.encoder_size_le hsize
  obtain ⟨hstruct, hcopy⟩ := h.copy (by omega)
  have hcodec : m.u32 4 = m'.u32 4 := h.u32 (by omega)
  have hlevel : m.i32 8 = m'.i32 8 := by rw [Memory.i32, h.u32 (by omega), Memory.i32]
  unfold encoderNewAt
  rw [← hcopy, ← hstruct, ← hcodec, ← hlevel]

theorem encoderResetAt_agree (e : Encoder v) (hsize : encoderOptsSize ≤ m.structSize)
    (h : Memory.Agree encoderOptsSize m m') : encoderResetAt e m = encoderResetAt e m' := by
  have hn := Memory.encoder_size_le hsize
  obtain ⟨hstruct, hcopy⟩ := h.copy (by omega)
  unfold encoderResetAt
  rw [← hcopy, ← hstruct]

theorem checkDecOptsAt_agree (hsize : decoderOptsRequiredSize ≤ m.structSize)
    (h : Memory.Agree decoderOptsSize m m') : checkDecOptsAt m = checkDecOptsAt m' := by
  have hn := Memory.decoder_size_le hsize
  obtain ⟨hstruct, -⟩ := h.copy (by omega)
  have hflags : m.u32 20 = m'.u32 20 := h.u32 (by omega)
  unfold checkDecOptsAt
  rw [← hstruct, ← hflags]

theorem decoderNewAt_agree (hsize : decoderOptsRequiredSize ≤ m.structSize)
    (h : Memory.Agree decoderOptsSize m m') :
    decoderNewAt lookup m = decoderNewAt lookup m' := by
  have hn := Memory.decoder_size_le hsize
  obtain ⟨hstruct, hcopy⟩ := h.copy (by omega)
  have hcodec : m.u32 4 = m'.u32 4 := h.u32 (by omega)
  unfold decoderNewAt
  rw [← hcopy, ← hcodec, ← checkDecOptsAt_agree hsize h]

theorem decoderResetAt_agree (d : Decoder v) (hsize : decoderOptsRequiredSize ≤ m.structSize)
    (h : Memory.Agree decoderOptsSize m m') : decoderResetAt d m = decoderResetAt d m' := by
  have hn := Memory.decoder_size_le hsize
  obtain ⟨hstruct, hcopy⟩ := h.copy (by omega)
  unfold decoderResetAt
  rw [← hcopy, ← checkDecOptsAt_agree hsize h]

/-! ## Refusals -/

theorem expected_refused (hflag : m.u32 20 &&& decExpectedSize ≠ 0)
    (hsize : m.structSize < decoderOptsSize) :
    decoderNewAt lookup m = .error .errInvalidArgument ∧
      ∀ {v : CodecVtable} (d : Decoder v), decoderResetAt d m = (.errInvalidArgument, d) := by
  have hcheck : checkDecOptsAt m ≠ .ok := by
    unfold checkDecOptsAt
    by_cases hrequired : m.structSize < decoderOptsRequiredSize
    · rw [if_pos hrequired]
      simp
    · rw [if_neg hrequired, if_pos ⟨hflag, hsize⟩]
      simp
  exact ⟨if_pos hcheck, fun d => if_pos hcheck⟩

/-- The options of an encoder reset pass the driver's checks. -/
structure EncoderOpts.Passes (e : Encoder v) (o : EncoderOpts) : Prop where
  size : encoderOptsSize ≤ o.structSize
  codec : o.codec = e.opts.codec
  level : checkLevel v o.level = .ok

/-- So do those of a decoder reset. -/
structure DecoderOpts.Passes (d : Decoder v) (o : DecoderOpts) : Prop where
  check : checkDecOpts o = .ok
  codec : o.codec = d.opts.codec

theorem checkLevel_cases (v : CodecVtable) (level : ℤ) :
    checkLevel v level = .ok ∨ checkLevel v level = .errInvalidArgument := by
  unfold checkLevel
  split_ifs <;> simp

theorem checkLevel_range {level : ℤ} (h : checkLevel v level = .ok)
    (hrange : ¬ (v.levelMin = 0 ∧ v.levelMax = 0 ∧ v.levelDefault = 0))
    (hne : level ≠ levelDefault) : v.levelMin ≤ level ∧ level ≤ v.levelMax := by
  unfold checkLevel at h
  rw [if_neg hne, if_neg hrange] at h
  split_ifs at h with hout
  omega

/-- A reset whose options do not pass is refused and leaves the handle as it was. -/
theorem encoderReset_refused (e : Encoder v) {o : EncoderOpts} (h : ¬ EncoderOpts.Passes e o) :
    encoderReset e (some o) = (.errInvalidArgument, e) := by
  unfold encoderReset
  simp only [Option.getD_some]
  by_cases hsize : o.structSize < encoderOptsSize
  · rw [if_pos hsize]
  rw [if_neg hsize]
  by_cases hcodec : (copyEncoderOpts o).codec ≠ e.opts.codec
  · rw [if_pos hcodec]
  rw [if_neg hcodec]
  have hlevel : checkLevel v (copyEncoderOpts o).level ≠ .ok := fun hok =>
    h ⟨UInt32.not_lt.mp hsize, not_not.mp hcodec, hok⟩
  rw [if_pos hlevel, (checkLevel_cases v _).resolve_left hlevel]

theorem decoderReset_refused (d : Decoder v) {o : DecoderOpts} (h : ¬ DecoderOpts.Passes d o) :
    decoderReset d (some o) = (.errInvalidArgument, d) := by
  unfold decoderReset
  simp only [Option.getD_some]
  by_cases hcheck : checkDecOpts o = .ok
  · rw [if_neg (not_not.mpr hcheck)]
    exact if_pos fun hcodec => h ⟨hcheck, hcodec⟩
  · rw [if_pos hcheck]

/-! ## An expected size that is not announced -/

namespace DecoderOpts

/-- The options differ at most in an expected size that neither announces. -/
structure Alike (o o' : DecoderOpts) : Prop where
  same : o' = { o with expectedSize := o'.expectedSize }
  announced : o.hasExpected = true → o'.expectedSize = o.expectedSize

variable {o o' : DecoderOpts}

theorem Alike.refl (o : DecoderOpts) : Alike o o := ⟨rfl, fun _ => rfl⟩

theorem Alike.hasExpected (h : Alike o o') : o'.hasExpected = o.hasExpected := by rw [h.same]; rfl

theorem Alike.ceiling (h : Alike o o') : o'.ceiling = o.ceiling := by
  by_cases hexp : o.hasExpected = true
  · rw [h.same, h.announced hexp]
  · have hmax : o'.maxOutput = o.maxOutput := by rw [h.same]
    unfold DecoderOpts.ceiling
    rw [h.hasExpected, hmax]
    simp only [hexp, false_and, if_false, Bool.false_eq_true]

theorem Alike.copy (h : Alike o o') :
    Alike (copyDecoderOpts o) (copyDecoderOpts o') := by
  refine ⟨?_, fun hexp => ?_⟩
  · rw [h.same]
    rfl
  · have hexp : o.hasExpected = true := hexp
    rw [h.same, h.announced hexp]

theorem Alike.check (h : Alike o o') : checkDecOpts o' = checkDecOpts o := by
  rw [h.same]
  rfl

end DecoderOpts

/-- A codec that does not read an expected size that is not announced: `Same` is what its calls
cannot tell apart. -/
structure Unannounced (v : CodecVtable) where
  Same : v.Dec → v.Dec → Prop
  refl : ∀ s, Same s s
  new_error : ∀ {o o' st}, DecoderOpts.Alike o o' → v.decoderNew o = .error st →
    v.decoderNew o' = .error st
  new_ok : ∀ {o o' s}, DecoderOpts.Alike o o' → v.decoderNew o = .ok s →
    ∃ s', v.decoderNew o' = .ok s' ∧ Same s s'
  process : ∀ {s s'} buf mode, Same s s' →
    (v.decoderProcess s buf mode).1 = (v.decoderProcess s' buf mode).1 ∧
      (v.decoderProcess s buf mode).2.2 = (v.decoderProcess s' buf mode).2.2 ∧
      Same (v.decoderProcess s buf mode).2.1 (v.decoderProcess s' buf mode).2.1
  reset : ∀ {f s s' o o'}, v.decoderReset = some f → Same s s' → DecoderOpts.Alike o o' →
    (f s o).1 = (f s' o').1 ∧ Same (f s o).2 (f s' o').2

/-- An operation on a handle, and all that the caller can read afterwards. -/
def decoderOpAnswer (d : Decoder v) :
    DecoderOp → (Status × Option Buffer × UInt64 × UInt64) × Decoder v
  | .process buf mode =>
    let r := decoderProcess d buf mode
    ((r.1, some r.2.2, r.2.1.totalIn, r.2.1.totalOut), r.2.1)
  | .reset o =>
    let r := decoderReset d o
    ((r.1, none, r.2.totalIn, r.2.totalOut), r.2)

namespace Unannounced

variable (k : Unannounced v)

/-- Handles that differ at most in an expected size that is not announced. -/
structure Handles (d d' : Decoder v) : Prop where
  state : k.Same d.state d'.state
  opts : d.opts.Alike d'.opts
  finished : d'.finished = d.finished
  totalIn : d'.totalIn = d.totalIn
  totalOut : d'.totalOut = d.totalOut

variable {k} {d d' : Decoder v}

theorem Handles.allowance (h : k.Handles d d') (room : ℕ) :
    d'.allowance room = d.allowance room := by
  unfold Decoder.allowance Decoder.remaining
  rw [h.opts.ceiling, h.totalOut]

theorem Handles.verdict (h : k.Handles d d') (st : Status) (capped : Bool) (allowed produced : ℕ)
    (unread : Bool) :
    d'.verdict st capped allowed produced unread = d.verdict st capped allowed produced unread := by
  have hover : d'.opts.overStatus = d.opts.overStatus := by
    unfold DecoderOpts.overStatus
    rw [h.opts.ceiling]
  have hflags : d'.opts.flags = d.opts.flags := by rw [h.opts.same]
  have hmax : d'.opts.maxOutput = d.opts.maxOutput := by rw [h.opts.same]
  have hratio : d'.opts.maxRatio = d.opts.maxRatio := by rw [h.opts.same]
  have htrail : d'.opts.rejectTrailing = d.opts.rejectTrailing := by
    rw [DecoderOpts.rejectTrailing, hflags, DecoderOpts.rejectTrailing]
  unfold Decoder.verdict
  rw [hover, htrail, hmax, hratio, h.totalOut, h.totalIn, h.opts.hasExpected]
  by_cases hexp : d.opts.hasExpected = true
  · rw [h.opts.announced hexp]
  · simp only [hexp, false_and, and_false, if_false, Bool.false_eq_true]

theorem Handles.shown (h : k.Handles d d') (buf : Buffer) : d'.shown buf = d.shown buf := by
  unfold Decoder.shown
  rw [h.allowance]

theorem Handles.settle (h : k.Handles d d') (buf : Buffer) (st : Status) {s s' : v.Dec}
    (hs : k.Same s s') (after : Buffer) :
    (d.settle buf (st, s, after)).status = (d'.settle buf (st, s', after)).status ∧
      (d.settle buf (st, s, after)).buf = (d'.settle buf (st, s', after)).buf ∧
      k.Handles (d.settle buf (st, s, after)).dec (d'.settle buf (st, s', after)).dec := by
  have hnext : k.Handles (d.settle buf (st, s, after)).dec (d'.settle buf (st, s', after)).dec := by
    refine ⟨hs, h.opts, rfl, ?_, ?_⟩
    · simp only [Decoder.settle, h.totalIn]
    · simp only [Decoder.settle, h.totalOut]
  refine ⟨?_, ?_, hnext⟩
  · have hverdict := hnext.verdict st (d.allowance buf.availOut).2 (d.allowance buf.availOut).1
      (cursorSub after.dstPos buf.dstPos) (after.srcPos < after.srcSize)
    unfold Decoder.settle at hverdict ⊢
    dsimp only at hverdict ⊢
    rw [← hverdict, h.allowance]
  · unfold Decoder.settle
    dsimp only
    rw [h.allowance]

theorem Handles.call (h : k.Handles d d') (buf : Buffer) (mode : Flush) :
    (decoderCall d buf mode).status = (decoderCall d' buf mode).status ∧
      (decoderCall d buf mode).buf = (decoderCall d' buf mode).buf ∧
      k.Handles (decoderCall d buf mode).dec (decoderCall d' buf mode).dec := by
  unfold decoderCall
  rw [h.finished, show d'.opts.rejectTrailing = d.opts.rejectTrailing by rw [h.opts.same]; rfl,
    h.shown]
  by_cases hbuf : checkBuffer buf ≠ .ok
  · rw [if_pos hbuf, if_pos hbuf]
    exact ⟨rfl, rfl, h⟩
  rw [if_neg hbuf, if_neg hbuf]
  by_cases hfin : d.finished = true
  · rw [if_pos hfin, if_pos hfin]
    exact ⟨rfl, rfl, h⟩
  rw [if_neg hfin, if_neg hfin]
  by_cases hmode : mode = .flush ∧ ¬ v.can canFlush
  · rw [if_pos hmode, if_pos hmode]
    exact ⟨rfl, rfl, h⟩
  rw [if_neg hmode, if_neg hmode]
  obtain ⟨hst, hbuf, hsame⟩ := k.process (d.shown buf) mode h.state
  rcases hr : v.decoderProcess d.state (d.shown buf) mode with ⟨st, s, after⟩
  rcases hr' : v.decoderProcess d'.state (d.shown buf) mode with ⟨st', s', after'⟩
  rw [hr, hr'] at hst hbuf hsame
  dsimp only at hst hbuf hsame
  subst hst hbuf
  exact h.settle buf st hsame after

theorem Handles.reset (h : k.Handles d d') {o o' : Option DecoderOpts}
    (ho : (o.getD d.opts).Alike (o'.getD d'.opts)) :
    (decoderReset d o).1 = (decoderReset d' o').1 ∧
      k.Handles (decoderReset d o).2 (decoderReset d' o').2 := by
  have hcopy := ho.copy
  have hcodec : (copyDecoderOpts (o'.getD d'.opts)).codec = (copyDecoderOpts (o.getD d.opts)).codec := by
    rw [hcopy.same]
  have hown : d'.opts.codec = d.opts.codec := by rw [h.opts.same]
  unfold decoderReset
  dsimp only
  rw [ho.check, hcodec, hown]
  by_cases hcheck : checkDecOpts (o.getD d.opts) ≠ .ok
  · rw [if_pos hcheck, if_pos hcheck]
    exact ⟨rfl, h⟩
  rw [if_neg hcheck, if_neg hcheck]
  by_cases hother : (copyDecoderOpts (o.getD d.opts)).codec ≠ d.opts.codec
  · rw [if_pos hother, if_pos hother]
    exact ⟨rfl, h⟩
  rw [if_neg hother, if_neg hother]
  rcases hf : v.decoderReset with _ | f
  · exact ⟨rfl, h⟩
  obtain ⟨hst, hsame⟩ := k.reset hf h.state hcopy
  dsimp only
  rcases hr : f d.state (copyDecoderOpts (o.getD d.opts)) with ⟨st, s⟩
  rcases hr' : f d'.state (copyDecoderOpts (o'.getD d'.opts)) with ⟨st', s'⟩
  rw [hr, hr'] at hst hsame
  dsimp only at hst hsame
  subst hst
  cases st with
  | ok => exact ⟨rfl, hsame, hcopy, rfl, rfl, rfl⟩
  | _ => exact ⟨rfl, hsame, h.opts, h.finished, h.totalIn, h.totalOut⟩

/-- No run tells such handles apart. -/
theorem Handles.answers (h : k.Handles d d') (ops : List DecoderOp) :
    answers decoderOpAnswer d ops = answers decoderOpAnswer d' ops := by
  refine answers_eq k.Handles (fun d d' op h => ?_) h ops
  cases op with
  | process buf mode =>
    obtain ⟨hst, hbuf, hnext⟩ := h.call buf mode
    refine ⟨?_, hnext⟩
    change (_, some _, _, _) = (_, some _, _, _)
    rw [show (decoderProcess d buf mode).1 = (decoderProcess d' buf mode).1 from hst,
      show (decoderProcess d buf mode).2.2 = (decoderProcess d' buf mode).2.2 from hbuf,
      show (decoderProcess d' buf mode).2.1.totalIn = (decoderProcess d buf mode).2.1.totalIn from
        hnext.totalIn,
      show (decoderProcess d' buf mode).2.1.totalOut = (decoderProcess d buf mode).2.1.totalOut from
        hnext.totalOut]
  | reset o =>
    have ho : (o.getD d.opts).Alike (o.getD d'.opts) := by
      cases o with
      | none => exact h.opts
      | some o => exact .refl o
    obtain ⟨hst, hnext⟩ := h.reset ho
    refine ⟨?_, hnext⟩
    change (_, none, _, _) = (_, none, _, _)
    rw [hst, hnext.totalIn, hnext.totalOut]

theorem handles_new (lookup : CodecId → Option CodecVtable) {o o' : DecoderOpts} (h : o.Alike o')
    (hv : ∀ {v}, lookup o.codec = some v → Nonempty (Unannounced v)) :
    (∀ st, decoderNew lookup o = .error st → decoderNew lookup o' = .error st) ∧
      ∀ {v : CodecVtable} {d : Decoder v}, decoderNew lookup o = .ok ⟨v, d⟩ →
        ∃ (k : Unannounced v) (d' : Decoder v),
          decoderNew lookup o' = .ok ⟨v, d'⟩ ∧ k.Handles d d' := by
  have hcopy := h.copy
  have hcodec : o'.codec = o.codec := by rw [h.same]
  unfold decoderNew
  rw [h.check, hcodec]
  by_cases hcheck : checkDecOpts o ≠ .ok
  · rw [if_pos hcheck, if_pos hcheck]
    exact ⟨fun _ herr => herr, nofun⟩
  rw [if_neg hcheck, if_neg hcheck]
  rcases hfound : resolve lookup o.codec canDecode with st | v
  · exact ⟨fun _ herr => herr, nofun⟩
  dsimp only
  obtain ⟨k⟩ := hv (resolve_found hfound)
  rcases hnew : v.decoderNew (copyDecoderOpts o) with st | s
  · rw [k.new_error hcopy hnew]
    exact ⟨fun _ herr => herr, nofun⟩
  · obtain ⟨s', hnew', hsame⟩ := k.new_ok hcopy hnew
    rw [hnew']
    refine ⟨nofun, fun hok => ?_⟩
    cases hok
    exact ⟨k, _, rfl, hsame, hcopy, rfl, rfl, rfl⟩

end Unannounced

namespace Memory

/-- The struct with a default for a field that is not all there. -/
def defaulted (m : Memory) : Memory := fun i => if i < 24 then m i else 0

theorem u32_defaulted {offset : ℕ} (h : offset + 4 ≤ 24) :
    m.defaulted.u32 offset = m.u32 offset :=
  u32_congr fun i hi => if_pos (by omega)

theorem read_defaulted (m : Memory) : DecoderOpts.read m.defaulted =
    { DecoderOpts.read m with expectedSize := m.defaulted.u64 24 } := by
  have hmax : m.defaulted.u64 8 = m.u64 8 :=
    congrArg UInt64.ofNat (le_congr fun i hi => if_pos (by omega))
  unfold DecoderOpts.read structSize
  rw [u32_defaulted (by omega), u32_defaulted (by omega), u32_defaulted (by omega),
    u32_defaulted (by omega), hmax]

theorem alike_defaulted (hcheck : checkDecOptsAt m = .ok) (hshort : m.structSize < decoderOptsSize) :
    (DecoderOpts.read m).Alike (DecoderOpts.read m.defaulted) := by
  rw [read_defaulted]
  refine ⟨rfl, fun hexp => ?_⟩
  unfold checkDecOptsAt at hcheck
  split_ifs at hcheck with hrequired hexpected
  exact absurd ⟨bne_iff_ne.mp hexp, hshort⟩ hexpected

end Memory

end Zukomp
