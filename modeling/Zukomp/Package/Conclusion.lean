import Zukomp.Concluded
import Zukomp.Frames.Window
import Zukomp.Package.Guard

/-! # What R can be told

With any of the built-in codecs `komp_compress` and `komp_decompress` return bytes or raise a
condition of the class that belongs to the status, and never an internal error.
-/

namespace Zukomp

/-- What `mz_deflateInit2` and `mz_inflateInit2` return. -/
def MzStatus.Starts (st : MzStatus) : Prop :=
  st = .ok ∨ st = .streamError ∨ st = .paramError ∨ st = .memError

/-- The libraries start with the parameters that the codecs set, or say why not. -/
structure Libraries.Starts (K : Libraries) : Prop where
  deflate : ∀ level, (K.miniz.deflate.init level).1.Starts
  inflate : ∀ level, (K.miniz.inflate.init level).1.Starts
  zstdChecksum : ∀ z, (K.zstd.setChecksumFlag z).isSome
  zstdWindow : ∀ z log, 10 ≤ log → log ≤ 31 → (K.zstd.setWindowLogMax z log).isSome

/-- The statuses that say why an instance cannot be had. -/
def Status.Refuses (st : Status) : Prop := st.isError = true ∧ st ≠ .errInternal

theorem deflateNew_refuses {E : MzStream} {wrap : WrapKind} {encoder : Bool} {level : ℤ}
    {decFlags : UInt32} {st : Status} (hinit : ∀ level, (E.init level).1.Starts)
    (h : deflateNew E wrap encoder level decFlags = .error st) : st.Refuses := by
  unfold deflateNew at h
  dsimp only at h
  split at h
  · cases h
  · next hne heq =>
    cases h
    have hmz := hinit (if level = levelDefault then mzDefaultLevel else level)
    rw [heq] at hmz
    rcases hmz with rfl | rfl | rfl | rfl
    · exact absurd rfl hne
    · exact ⟨rfl, by simp [fromMz]⟩
    · exact ⟨rfl, by simp [fromMz]⟩
    · exact ⟨rfl, by simp [fromMz]⟩

theorem zstdEncoderNew_refuses {Z : Zstd} {o : EncoderOpts} {st : Status}
    (hset : ∀ z, (Z.setChecksumFlag z).isSome) (h : zstdEncoderNew Z o = .error st) :
    st.Refuses := by
  unfold zstdEncoderNew at h
  split at h
  · cases h
    exact ⟨rfl, by simp⟩
  · split at h
    · next s _ =>
      obtain ⟨z, hz⟩ := Option.isSome_iff_exists.mp (hset s.cctx)
      rw [hz] at h
      cases h
    · next hne heq =>
      cases h
      unfold zstdLevel at heq
      dsimp only at heq
      split at heq <;> cases heq
      · exact ⟨rfl, by simp⟩
      · exact absurd rfl hne

theorem zstdDecoderNew_refuses {Z : Zstd} {o : DecoderOpts} {st : Status}
    (hset : ∀ z log, 10 ≤ log → log ≤ 31 → (Z.setWindowLogMax z log).isSome)
    (h : zstdDecoderNew Z o = .error st) : st.Refuses := by
  unfold zstdDecoderNew at h
  split at h
  · cases h
    exact ⟨rfl, by simp⟩
  · next z _ =>
    obtain ⟨hlo, hhi⟩ := zstdWindowLog_range o.maxOutput
    obtain ⟨z', hz'⟩ := Option.isSome_iff_exists.mp (hset z _ hlo hhi)
    have hwindow : zstdWindow (⟨⟨z, framesInit .zstd o.flags⟩, o.maxOutput⟩ : ZstdDecoder Z) =
        (.ok, ⟨⟨z', framesInit .zstd o.flags⟩, o.maxOutput⟩) := by
      unfold zstdWindow
      rw [hz']
    rw [hwindow] at h
    cases h

theorem Libraries.Starts.encoder {K : Libraries} (h : K.Starts) (b : Builtin) {o : EncoderOpts}
    {st : Status} (hnew : (K.codec b).encoderNew o = .error st) : st.Refuses := by
  cases b with
  | identity => cases hnew
  | deflateRaw => exact deflateNew_refuses h.deflate hnew
  | zlib => exact deflateNew_refuses h.deflate hnew
  | gzip => exact deflateNew_refuses h.deflate hnew
  | zstd => exact zstdEncoderNew_refuses h.zstdChecksum hnew
  | lz4Frame =>
    have hnew : lz4fEncoderNew K.lz4f o = .error st := hnew
    unfold lz4fEncoderNew at hnew
    split at hnew <;> cases hnew
    exact ⟨rfl, by simp⟩
  | lz4Block => cases hnew

theorem Libraries.Starts.decoder {K : Libraries} (h : K.Starts) (b : Builtin) {o : DecoderOpts}
    {st : Status} (hnew : (K.codec b).decoderNew o = .error st) : st.Refuses := by
  cases b with
  | identity => cases hnew
  | deflateRaw => exact deflateNew_refuses h.inflate hnew
  | zlib => exact deflateNew_refuses h.inflate hnew
  | gzip => exact deflateNew_refuses h.inflate hnew
  | zstd => exact zstdDecoderNew_refuses h.zstdWindow hnew
  | lz4Frame =>
    have hnew : lz4fDecoderNew K.lz4f o = .error st := hnew
    unfold lz4fDecoderNew at hnew
    split at hnew <;> cases hnew
    exact ⟨rfl, by simp⟩
  | lz4Block => cases hnew

theorem encoderNew_refuses {lookup : CodecId → Option CodecVtable} {opts : EncoderOpts}
    (hv : ∀ v, lookup opts.codec = some v → ∀ {o st}, v.encoderNew o = .error st → st.Refuses)
    {st : Status} (h : encoderNew lookup opts = .error st) : st.Refuses := by
  unfold encoderNew at h
  split at h
  · cases h
    exact ⟨rfl, by simp⟩
  · split at h
    · next hres =>
      cases h
      unfold resolve at hres
      split at hres
      · cases hres
        exact ⟨rfl, by simp⟩
      · split_ifs at hres
        cases hres
        exact ⟨rfl, by simp⟩
    · next v hres =>
      split_ifs at h with hlevel
      · cases h
        unfold checkLevel at hlevel ⊢
        split_ifs at hlevel ⊢ <;> first | exact absurd rfl hlevel | exact ⟨rfl, by simp⟩
      · split at h
        · next hnew =>
          cases h
          exact hv v (resolve_found hres) hnew
        · cases h

namespace Package

variable {levels : Registrant → AbstractLevels} {r : Registry} {c : TableCache}

theorem WholeArgs.opts_cases (a : WholeArgs) (r : Registry) :
    (∃ st, a.opts r = .error st ∧ st.Refuses) ∨
      ∃ o, a.opts r = .ok o ∧ 0 < o.inChunk ∧ 0 < o.outChunk := by
  unfold WholeArgs.opts
  split
  · by_cases hnone : r.codecLookup a.codec = codecNone
    · rw [if_pos hnone]
      exact .inl ⟨_, rfl, ⟨rfl, by simp⟩⟩
    rw [if_neg hnone]
    refine .inr ⟨_, rfl, ?_, by simp [wholeChunk]⟩
    dsimp only
    by_cases henc : a.encode = true
    · rw [if_pos henc]
      by_cases hpos : 0 < a.src.length
      · rwa [if_pos hpos]
      · rw [if_neg hpos]
        exact Nat.one_pos
    · rw [if_neg henc]
      simp [wholeChunk]
  · exact .inl ⟨_, rfl, ⟨rfl, by simp⟩⟩

end Package

end Zukomp
