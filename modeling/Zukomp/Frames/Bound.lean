import Zukomp.Core.Bound
import Zukomp.Frames.Writer
import Zukomp.Frames.Zstd

/-! # The bounds of the frame codecs

Each adds nothing of its own to its library's bound. libzstd computes it in `size_t` with an
error value, liblz4 with its block count in 32 bits.
-/

namespace Zukomp

open Library

/-! ## zstd -/

def zstdMaxInputSize : ℕ := 0xFF00FF00FF00FF00

/-- The margin of `ZSTD_COMPRESSBOUND`, from 64 to 0. -/
def zstdMargin (n : ℕ) : ℕ := if n < 128 * 1024 then (128 * 1024 - n) / 2048 else 0

/-- `ZSTD_compressBound`, with `ERROR(srcSize_wrong)` where the macro gives 0. -/
def zstdCompressBound (n : ℕ) : ℕ :=
  let r := if zstdMaxInputSize ≤ n then 0 else (n + n / 256 + zstdMargin n) % wordSize
  if r = 0 then wordSize - 72 else r

/-- `ZSTD_isError`: above `ERROR(maxCode)`. -/
def zstdIsError (r : ℕ) : Bool := wordSize - 120 < r

def zstdBound : BoundEntry := fun _ n =>
  let b := zstdCompressBound n
  if zstdIsError b ∨ b = 0 then .error .errInvalidArgument else .ok b

/-- The largest frame that libzstd makes of `n` bytes. -/
def zstdWorst (n : ℕ) : ℕ := n + n / 256 + zstdMargin n

theorem zstdWorst_mono {m n : ℕ} (h : m ≤ n) : zstdWorst m ≤ zstdWorst n := by
  unfold zstdWorst zstdMargin
  split_ifs <;> omega

theorem zstdBound_ok {n b : ℕ} {level : ℤ} (h : zstdBound level n = .ok b) : b = zstdWorst n := by
  unfold zstdBound at h
  dsimp only at h
  split_ifs at h with hbad
  obtain rfl := Except.ok.inj h
  unfold zstdCompressBound at hbad ⊢
  dsimp only at hbad ⊢
  have hlt (hn : ¬ zstdMaxInputSize ≤ n) : n + n / 256 + zstdMargin n < wordSize := by
    unfold zstdMargin wordSize
    unfold zstdMaxInputSize at hn
    split_ifs <;> omega
  by_cases hmax : zstdMaxInputSize ≤ n
  · rw [if_pos hmax, if_pos rfl] at hbad
    exact absurd (.inl (by decide)) hbad
  · rw [if_neg hmax, Nat.mod_eq_of_lt (hlt hmax)] at hbad ⊢
    by_cases hzero : n + n / 256 + zstdMargin n = 0
    · rw [if_pos hzero] at hbad
      exact absurd (.inl (by decide)) hbad
    · rw [if_neg hzero]
      rfl

/-- In a new context `ZSTD_e_end` ends the frame in one call, if the room is that of
`ZSTD_compressBound`. -/
def ZstdFits (Z : Zstd) : Prop :=
  ∀ {o s level input b room n}, zstdEncoderNew Z o = .ok s → zstdBound level input.length = .ok b →
    b ≤ room → (Z.compress s.cctx input room .eEnd).remaining = .ok n → n = 0

theorem zstdError_encoder (code : ZstdError) : (zstdError true 0 code).isError = true ∧
    zstdError true 0 code ≠ .errOutputLimit ∧ zstdError true 0 code ≠ .needOutput := by
  cases code <;> simp [zstdError, Status.isError]

variable {Z : Zstd}

/-- Into the bound's room the one call of a new encoder fits. -/
theorem zstdEncoderProcess_fitsRoom (C : ZstdFits Z) {o : EncoderOpts} {s : ZstdEncoder Z}
    (hnew : zstdEncoderNew Z o = .ok s) (hdone : s.done = false) {w : Window} {level : ℤ}
    (hbound : zstdBound level w.input.length = .ok w.room) {At : ZstdEncoder Z → ℕ → ℕ → Prop} :
    FitsRoom At w 0 0 (zstdEncoderProcess s w .finish) := by
  unfold zstdEncoderProcess
  rw [if_neg (by simp [hdone]), runLoop]
  unfold zstdEncoderStep
  dsimp only
  rw [show zstdOp .finish = .eEnd from rfl]
  cases hr : (Z.compress s.cctx w.input w.room .eEnd).remaining with
  | error code =>
    obtain ⟨herr, hlimit, hneed⟩ := zstdError_encoder code
    exact ⟨⟨0, [], .refl w, fun h => absurd herr (by simp [h])⟩, hlimit, fun h => absurd h hneed⟩
  | ok left =>
    obtain rfl := C hnew hbound le_rfl hr
    dsimp only
    rw [if_pos ⟨rfl, rfl⟩]
    exact ⟨⟨_, _, ⟨Z.compress_used_le .., Z.compress_out_le .., rfl⟩, fun _ h => absurd rfl h⟩,
      by simp, by simp⟩

theorem zstdEncoderNew_done {o : EncoderOpts} {s : ZstdEncoder Z}
    (h : zstdEncoderNew Z o = .ok s) : s.done = false := by
  unfold zstdEncoderNew zstdLevel at h
  dsimp only at h
  split at h
  · cases h
  · split at h
    · next hlevel =>
      split at hlevel
      · cases hlevel
      · cases hlevel
        split at h
        · cases h
        · cases h
          rfl
    · cases h

theorem zstdEncoderNew_refused {o : EncoderOpts} {st : Status}
    (h : zstdEncoderNew Z o = .error st) : st ≠ .errOutputLimit := by
  unfold zstdEncoderNew zstdLevel at h
  dsimp only at h
  split at h
  · cases h
    simp
  · split at h
    · split at h <;> cases h
      simp
    · next hlevel =>
      split at hlevel
      · cases hlevel
        cases h
        simp
      · cases hlevel
        exact (‹_ → False› rfl).elim

/-! ## lz4-frame -/

/-- The default block, `LZ4F_max64KB`. -/
def lz4fBlockSize : ℕ := 64 * 1024

/-- `maxFHSize`, `BHSize`, `BFSize` -/
def lz4fHeaderSizeMax : ℕ := 19
def lz4fBlockHeaderSize : ℕ := 4
def lz4fChecksumSize : ℕ := 4

/-- `LZ4F_compressBound_internal` for the default block and no block checksums: the block counts
are 32-bit. -/
def lz4fCompressBoundInternal (prefs : Lz4fPrefs) (autoFlush : Bool) (srcSize alreadyBuffered : ℕ) :
    ℕ :=
  let bufferedSize := min alreadyBuffered (lz4fBlockSize - 1)
  let maxSrcSize := (srcSize + bufferedSize) % wordSize
  let nbFullBlocks := maxSrcSize / lz4fBlockSize % 2 ^ 32
  let partialBlockSize := maxSrcSize % lz4fBlockSize
  let lastBlockSize := if autoFlush ∨ srcSize = 0 then partialBlockSize else 0
  let nbBlocks := (nbFullBlocks + if 0 < lastBlockSize then 1 else 0) % 2 ^ 32
  let frameEnd := lz4fBlockHeaderSize + if prefs.contentChecksum then lz4fChecksumSize else 0
  (lz4fBlockHeaderSize * nbBlocks + lz4fBlockSize * nbFullBlocks + lastBlockSize + frameEnd) %
    wordSize

def lz4fCompressFrameBound (prefs : Lz4fPrefs) (srcSize : ℕ) : ℕ :=
  (lz4fHeaderSizeMax + lz4fCompressBoundInternal prefs true srcSize 0) % wordSize

/-- `LZ4F_isError`: above `LZ4F_ERROR_maxCode`. -/
def lz4fIsError (r : ℕ) : Bool := wordSize - 24 < r

/-- With the content size declared, which only lengthens the header. -/
def lz4fBound : BoundEntry := fun level n =>
  let b := lz4fCompressFrameBound { lz4fPrefs level with contentSize := n } n
  if lz4fIsError b then .error .errInvalidArgument else .ok b

/-- The frame of `n` bytes in stored blocks: the header with a content size, a header for each
block, the end mark and the checksum. -/
def lz4fWorst (n : ℕ) : ℕ :=
  15 + n + lz4fBlockHeaderSize * ((n + (lz4fBlockSize - 1)) / lz4fBlockSize) + 8

theorem lz4fWorst_mono {m n : ℕ} (h : m ≤ n) : lz4fWorst m ≤ lz4fWorst n := by
  unfold lz4fWorst lz4fBlockHeaderSize lz4fBlockSize
  omega

/-- The block counts of the bound, as 32-bit numbers. -/
def lz4fFullBlocks (n : ℕ) : ℕ := n / lz4fBlockSize % 2 ^ 32
def lz4fBlocks (n : ℕ) : ℕ := (lz4fFullBlocks n + if 0 < n % lz4fBlockSize then 1 else 0) % 2 ^ 32

/-- The bound never fails: what its counts lose makes it short. -/
theorem lz4fBound_eq {n : ℕ} (hn : n < wordSize) (level : ℤ) :
    lz4fBound level n =
      .ok (27 + 4 * lz4fBlocks n + lz4fBlockSize * lz4fFullBlocks n + n % lz4fBlockSize) := by
  have hfull : lz4fFullBlocks n < 2 ^ 32 := Nat.mod_lt _ (by norm_num)
  have hblocks : lz4fBlocks n < 2 ^ 32 := Nat.mod_lt _ (by norm_num)
  have hlast : n % lz4fBlockSize < lz4fBlockSize := Nat.mod_lt _ (by norm_num [lz4fBlockSize])
  have hinternal : lz4fCompressBoundInternal { lz4fPrefs level with contentSize := n } true n 0 =
      (4 * lz4fBlocks n + lz4fBlockSize * lz4fFullBlocks n + n % lz4fBlockSize + 8) % wordSize := by
    unfold lz4fCompressBoundInternal
    dsimp only
    simp only [Nat.zero_min, Nat.add_zero, Nat.mod_eq_of_lt hn]
    rfl
  have hbound : lz4fCompressFrameBound { lz4fPrefs level with contentSize := n } n =
      27 + 4 * lz4fBlocks n + lz4fBlockSize * lz4fFullBlocks n + n % lz4fBlockSize := by
    unfold lz4fCompressFrameBound
    rw [hinternal]
    unfold lz4fBlockSize at hlast ⊢
    unfold lz4fHeaderSizeMax wordSize
    omega
  unfold lz4fBound
  dsimp only
  rw [hbound, if_neg]
  unfold lz4fIsError
  unfold lz4fBlockSize at hlast ⊢
  unfold wordSize
  simp only [decide_eq_true_eq]
  omega

/-- Up to here the 32-bit counts hold the frame's blocks. -/
def lz4fBoundMax : ℕ := 2 ^ 48 - 65536

theorem lz4fBlocks_exact {n : ℕ} (h : n ≤ lz4fBoundMax) :
    lz4fFullBlocks n = n / lz4fBlockSize ∧
      lz4fBlocks n = (n + (lz4fBlockSize - 1)) / lz4fBlockSize := by
  unfold lz4fBlocks lz4fFullBlocks lz4fBlockSize
  unfold lz4fBoundMax at h
  constructor
  · omega
  · split_ifs <;> omega

theorem lz4fBound_ok {n b : ℕ} (hn : n ≤ lz4fBoundMax) {level : ℤ}
    (h : lz4fBound level n = .ok b) : b = lz4fWorst n + 4 := by
  obtain ⟨hfull, hblocks⟩ := lz4fBlocks_exact hn
  rw [lz4fBound_eq (hn.trans_lt (by norm_num [lz4fBoundMax])), hfull, hblocks] at h
  rw [← Except.ok.inj h]
  unfold lz4fWorst lz4fBlockHeaderSize lz4fBlockSize
  omega

theorem lz4fBound_short {n b : ℕ} (hmax : lz4fBoundMax < n) (hn : n < wordSize) {level : ℤ}
    (h : lz4fBound level n = .ok b) : b < lz4fWorst n := by
  rw [lz4fBound_eq hn] at h
  rw [← Except.ok.inj h]
  unfold lz4fBlocks lz4fFullBlocks lz4fWorst lz4fBlockHeaderSize lz4fBlockSize
  unfold lz4fBoundMax at hmax
  split_ifs <;> omega

/-- liblz4's compressor, from its header on and with no flush: its frames stay within stored
blocks. -/
structure Lz4fStores (F : Lz4f) : Prop where
  le : ∀ {z prefs} {W : FrameWriter F}, F.createCctx = some z → (FrameWriter.start z).Steps W →
    (W.log.Open prefs ∨ W.log.Whole prefs) → W.log.Unflushed →
      W.log.outputs.length ≤ lz4fWorst W.log.payload.length

variable {F : Lz4f}

/-- An encoder made new from `z`, `p` bytes into its payload and `q` into its output, with no
flush so far. -/
def Lz4fStored (F : Lz4f) (z : F.Cctx) (s : Lz4fEncoder F) (p q : ℕ) : Prop :=
  ∃ W : FrameWriter F, (FrameWriter.start z).Steps W ∧ Lz4fWritten s W ∧ W.log.Unflushed ∧
    W.log.payload.length = p ∧ W.given.length = q

theorem lz4fError_encoder (code : Lz4fError) : (lz4fError true code).isError = true ∧
    lz4fError true code ≠ .errOutputLimit ∧ lz4fError true code ≠ .needOutput := by
  cases code <;> simp [lz4fError, Status.isError]

/-- Into the bound's room every call of the encoder fits. -/
theorem lz4fEncoderProcess_fitsRoom (C : Lz4fStores F) {z : F.Cctx} (hz : F.createCctx = some z)
    {n cap : ℕ} (hcap : lz4fWorst n ≤ cap) (s : Lz4fEncoder F) (w : Window) {p q : ℕ}
    (hat : Lz4fStored F z s p q) (hp : p + w.input.length = n) (hq : q + w.room = cap) :
    FitsRoom (Lz4fStored F z) w p q (lz4fEncoderProcess s w .finish) := by
  obtain ⟨W, hsteps, hwritten, hflushed, rfl, rfl⟩ := hat
  have houtcome := lz4fEncoderProcess_outcome hwritten w .finish
  generalize lz4fEncoderProcess s w .finish = r at houtcome ⊢
  cases houtcome with
  | unbegun _ t moved code =>
    obtain ⟨herr, hlimit, hneed⟩ := lz4fError_encoder code
    exact ⟨⟨_, _, moved, fun h => absurd herr (by simp [h])⟩, hlimit, fun h => absurd h hneed⟩
  | followed follows hanswer =>
  obtain ⟨u, o, W', hW⟩ := follows
  have hflushed' := hW.flushed (by simp) hflushed
  have hread := hW.moved.read_le
  have hpayload : W'.log.payload.length = W.log.payload.length + u := by
    rw [hW.payload, List.length_append, List.length_take, Nat.min_eq_left hread]
  have hgiven : W'.given.length = W.given.length + o.length := by
    rw [hW.given, List.length_append]
  have hstored : Lz4fStored F z r.2.1 (W.log.payload.length + u) (W.given.length + o.length) :=
    ⟨W', hsteps.trans hW.steps, hW.written, hflushed', hpayload, hgiven⟩
  refine ⟨⟨u, o, hW.moved, fun _ _ => hstored⟩, ?_, fun hneed => ?_⟩
  · cases hanswer with
    | failed s w code => exact (lz4fError_encoder code).2.1
    | _ => simp
  · have hmoved := hW.moved.eq
    have hwritten' := hW.written
    cases hanswer with
    | @full t v hstage hroom =>
      exfalso
      -- the window is full and yet some of the frame is staged
      have hexact : W'.Exact := FrameWriter.Steps.exact (hsteps.trans hW.steps) rfl
      have hpos := List.length_pos_of_ne_nil hstage
      have hlen := congrArg List.length hexact
      rw [List.length_append, hgiven, hwritten'.stage] at hlen
      have hworst : W'.log.outputs.length ≤ lz4fWorst W'.log.payload.length := by
        rcases hwritten'.logged with ⟨hlog, -, -⟩ | ⟨hlog, -, -⟩ | ⟨hlog, -, -⟩
        · rw [hlog]
          exact Nat.zero_le _
        · exact C.le hz (hsteps.trans hW.steps) (.inl hlog) hflushed'
        · exact C.le hz (hsteps.trans hW.steps) (.inr hlog) hflushed'
      rw [hpayload] at hworst
      have hmono := lz4fWorst_mono (show W.log.payload.length + u ≤ n by omega)
      have hfull : w.room - o.length = 0 := by
        change v = _ at hmoved
        rw [hmoved] at hroom
        exact hroom
      change _ + t.stage.length = _ at hlen
      omega
    | failed s w code => exact absurd hneed (lz4fError_encoder code).2.2
    | _ => simp at hneed

theorem lz4fEncoderNew_stored {o : EncoderOpts} {s : Lz4fEncoder F}
    (h : lz4fEncoderNew F o = .ok s) : ∃ z, F.createCctx = some z ∧ Lz4fStored F z s 0 0 := by
  unfold lz4fEncoderNew at h
  split at h
  · cases h
  · next z hz =>
    cases h
    exact ⟨z, hz, .start z, .refl, ⟨rfl, rfl, .fresh rfl rfl rfl, by simp⟩, by
      simp [FrameWriter.start, Lz4fLog.Unflushed], rfl, rfl⟩

end Zukomp
