import Zukomp.Builtins
import Zukomp.Deflate.Recovery

/-! # Failed resets of the built-in encoders

A handle that has had all the memory it asked for recovers from any reset that fails. One of
the DEFLATE family that has been asked for another level without memory does not.
-/

namespace Zukomp

open Library

/-- What libzstd documents of its calls on a context: a session reset, and a level in range, do
not fail. -/
structure Zstd.Grants (Z : Zstd) : Type where
  resetCCtx : ∀ z, Z.resetCCtx z ≠ none
  setLevel : ∀ z level, -131072 ≤ level → level ≤ 22 → Z.setLevel z level ≠ none

theorem zstdEncoderReset_accepts {Z : Zstd} (G : Z.Grants) (s : ZstdEncoder Z) {use : EncoderOpts}
    (hlevel : checkLevel (zstdCodec Z) use.level = .ok) : (zstdEncoderReset s use).1 = .ok := by
  unfold zstdEncoderReset
  rcases hr : Z.resetCCtx s.cctx with _ | z
  · exact absurd hr (G.resetCCtx s.cctx)
  dsimp only
  by_cases hchange : use.level ≠ levelDefault ∧ use.level ≠ s.level
  · rw [if_pos hchange, zstdLevel]
    dsimp only
    rw [if_neg hchange.1]
    obtain ⟨hmin, hmax⟩ := checkLevel_range hlevel (by simp [zstdCodec]) hchange.1
    rcases hset : Z.setLevel z use.level with _ | z'
    · exact absurd hset (G.setLevel z _ hmin hmax)
    · rfl
  · rw [if_neg hchange]

namespace Libraries

variable {K : Libraries}

/-- The codecs' resets without memory. Only miniz's init asks for any. -/
def starved (K : Libraries) (short : ℤ → MzStatus × K.miniz.deflate.State) :
    (b : Builtin) → (K.codec b).Enc → EncoderOpts → Status × (K.codec b).Enc
  | .identity => fun s _ => (.ok, s)
  | .deflateRaw | .zlib | .gzip => fun s o => deflateResetWith short s o.level
  | .zstd => zstdEncoderReset
  | .lz4Frame => lz4fEncoderReset
  | .lz4Block => lz4bEncoderReset

/-- The resets that get as far as that init: another level, in the DEFLATE family. -/
def Starves (K : Libraries) : (b : Builtin) → (K.codec b).Enc → EncoderOpts → Prop
  | .deflateRaw | .zlib | .gzip => Relevels
  | .identity | .zstd | .lz4Frame | .lz4Block => fun _ _ => False

/-- What the codec's library documents of memory: miniz's init fails without it, and nothing
else does. -/
def Grants (K : Libraries) (short : ℤ → MzStatus × K.miniz.deflate.State) : Builtin → Type
  | .deflateRaw | .zlib | .gzip => (R : K.miniz.deflate.Restarts) × R.Allocates short
  | .zstd => K.zstd.Grants
  | .identity | .lz4Frame | .lz4Block => Unit

variable {short : ℤ → MzStatus × K.miniz.deflate.State}

/-- What such a reset needs to know of the encoder: of the DEFLATE family, the engine's level. -/
def Grants.upkeep : {b : Builtin} → K.Grants short b → EncoderUpkeep (K.codec b)
  | .identity, _ => .free identityProcess identityCodec_encodes
  | .deflateRaw, G => (deflateEncoderRenewal .none codecDeflateRaw G.1).toEncoderUpkeep
  | .zlib, G => (deflateEncoderRenewal .zlib codecZlib G.1).toEncoderUpkeep
  | .gzip, G => (deflateEncoderRenewal .gzip codecGzip G.1).toEncoderUpkeep
  | .zstd, _ => .free zstdEncoderProcess (zstdCodec_encodes K.zstd)
  | .lz4Frame, _ => .free lz4fEncoderProcess (lz4FrameCodec_encodes K.lz4f)
  | .lz4Block, _ => .free (lz4bEncoderProcess K.lz4) (lz4BlockCodec_encodes K.lz4)

def Grants.recovery : {b : Builtin} → (G : K.Grants short b) →
    EncoderRecovery (K.starved short b) G.upkeep (K.Starves b)
  | .identity, _ => .ofFrugal rfl fun _ _ => rfl
  | .deflateRaw, G => deflateRecovery codecDeflateRaw .none G.2
  | .zlib, G => deflateRecovery codecZlib .zlib G.2
  | .gzip, G => deflateRecovery codecGzip .gzip G.2
  | .zstd, G => .ofFrugal rfl fun {_ s _} _ hlevel => zstdEncoderReset_accepts G s hlevel
  | .lz4Frame, _ => .ofFrugal rfl fun _ _ => rfl
  | .lz4Block, _ => .ofFrugal rfl fun _ _ => rfl

end Libraries

variable {K : Libraries}

/-- In any run of a new built-in encoder the failed resets all recover exactly where none of
its resets takes a DEFLATE-family encoder to another level without memory. -/
theorem encoderReset_recovers {short : ℤ → MzStatus × K.miniz.deflate.State} {b : Builtin}
    (G : K.Grants short b) {lookup : CodecId → Option CodecVtable} {opts : EncoderOpts} {e₀ : Encoder (K.codec b)}
    (hnew : encoderNew lookup opts = .ok ⟨K.codec b, e₀⟩) (acts : List EncoderAct) :
    RunRecovers (K.starved short b) e₀.opts.level e₀ acts ↔
      RunFed (K.starved short b) (K.Starves b) e₀ acts :=
  G.recovery.run_recovers acts (G.upkeep.life_living hnew .new)

/-! ## A reference without memory -/

/-- The reference libraries over an engine that can be torn down. -/
def Libraries.tearable : Libraries :=
  { ref with miniz := ⟨(refInflate fixedA).tearable, (refInflate fixedA).tearable⟩ }

def Libraries.tearableGrants : tearable.Grants (shortInit (refInflate fixedA)) .zlib :=
  ⟨(refMinizRestarts fixedA).tearable,
    tearable_allocates (refMinizRestarts fixedA) (fun _ => rfl) fun _ => rfl⟩

def tearableEncoder (level : ℤ) : Encoder (Libraries.tearable.codec .zlib) where
  state := {
    mz := (some ⟨0, 0, false⟩ : Option RefInflate), mzCalled := false, encoder := true
    wrap := .zlib, state := .header
    level := level, hdr := zlibHeader level ++ List.replicate 8 0, hdrLen := 2, hdrPos := 0
    tail := List.replicate 8 0, tailLen := 4, tailPos := 0, checksum := 1, uncompressed := 0
    gz := gzipHeaderInit, decFlags := 0, probeMagic := false }
  opts := zlibLevel level
  finished := false

theorem tearableEncoder_new : encoderNew (fun _ => some (Libraries.tearable.codec .zlib))
    (zlibLevel 1) = .ok ⟨Libraries.tearable.codec .zlib, tearableEncoder 1⟩ := rfl

abbrev tearableStarved := Libraries.tearable.starved (shortInit (refInflate fixedA)) .zlib

/-- From level 1 a reset to level 9 without memory fails, and every later one at level 1 too. -/
theorem encoderReset_strands :
    ((tearableEncoder 1).resetIn tearableStarved (some (zlibLevel 9)) false).1 = .errMemory ∧
      Refused tearableStarved 1
        ((tearableEncoder 1).resetIn tearableStarved (some (zlibLevel 9)) false).2 ∧
      ¬ RunRecovers tearableStarved 1 (tearableEncoder 1) [.reset (some (zlibLevel 9)) false] := by
  have hliving : Libraries.tearableGrants.upkeep.Living 1 (tearableEncoder 1) :=
    EncoderUpkeep.life_living tearableEncoder_new .new
  have hpass : EncoderOpts.Passes (tearableEncoder 1) (zlibLevel 9) :=
    ⟨UInt32.le_refl _, rfl, by decide⟩
  have hstarves : Libraries.tearable.Starves .zlib (tearableEncoder 1).state
      (copyEncoderOpts (zlibLevel 9)) := ⟨by decide, by decide⟩
  obtain ⟨hfail, htorn⟩ := EncoderRecovery.starved_torn
    (r := Libraries.tearableGrants.recovery) hliving
    (o := some (zlibLevel 9)) hpass hstarves
  refine ⟨rfl, htorn.refused, fun hrun => ?_⟩
  rw [RunRecovers, if_neg hfail] at hrun
  exact hrun.1.admits htorn.refused

/-- A level out of range, and then a reset at its own level, without memory for either. -/
theorem encoderReset_recovers_refused :
    RunRecovers tearableStarved 1 (tearableEncoder 1)
      [.process (.ofParts [] 1) .run, .reset (some (zlibLevel 10)) false, .reset none false] := by
  refine (encoderReset_recovers Libraries.tearableGrants tearableEncoder_new _).mpr
    ⟨fun h => ?_, fun h => ?_, trivial⟩
  · exact absurd h.2.1.level (by decide)
  · exact absurd rfl h.2.2.2

end Zukomp
