import Zukomp.Frames.Continuation
import Zukomp.Package.Whole

/-! # What komp_detect knows

The built-in codecs are told apart by their first bytes. Other packages may register codecs with magic
and sniffers of their own; where none of these claims the bytes, the answer is that of this package.
-/

namespace Zukomp

open Package

/-- The bytes begin as a stream of the codec does. -/
def Builtin.Marks (b : Builtin) (bytes : List UInt8) : Prop :=
  match b with
  | .gzip => gzipMagic <+: bytes
  | .zstd => FramesKind.zstd.magic <+: bytes
  | .lz4Frame => FramesKind.lz4.magic <+: bytes
  | .zlib => zlibSniff bytes = true
  | .identity | .deflateRaw | .lz4Block => False

/-- The codecs that their streams show. -/
def Builtin.Detectable : Builtin → Prop
  | .gzip | .zstd | .lz4Frame | .zlib => True
  | .identity | .deflateRaw | .lz4Block => False

theorem first_byte {a : UInt8} {magic bytes : List UInt8} (h : a :: magic <+: bytes) :
    bytes.getD 0 0 = a := by
  obtain ⟨rest, rfl⟩ := h
  rfl

theorem second_byte {a a' : UInt8} {magic bytes : List UInt8} (h : a :: a' :: magic <+: bytes) :
    bytes.getD 1 0 = a' := by
  obtain ⟨rest, rfl⟩ := h
  rfl

/-- A zlib header is not the magic of another codec. -/
theorem zlibSniff_magic {a a' : UInt8} {magic bytes : List UInt8} (h : a :: a' :: magic <+: bytes)
    (hnot : a &&& 0x0F ≠ 8 ∨ (a.toNat * 256 + a'.toNat) % 31 ≠ 0) : zlibSniff bytes = false := by
  have hcheck : zlibCheckHeader bytes = .errInvalidData := by
    unfold zlibCheckHeader
    rw [first_byte h, second_byte h]
    dsimp only
    rcases hnot with hcm | hmod
    · rw [if_pos hcm]
    · split_ifs <;> rfl
  unfold zlibSniff
  rw [hcheck]
  split_ifs <;> simp

theorem Builtin.Marks.unique {b b' : Builtin} {bytes : List UInt8} (h : b.Marks bytes)
    (h' : b'.Marks bytes) : b = b' := by
  have hgzip (h : Marks .gzip bytes) : bytes.getD 0 0 = 0x1F ∧ zlibSniff bytes = false :=
    ⟨first_byte h, zlibSniff_magic h (.inl (by decide))⟩
  have hzstd (h : Marks .zstd bytes) : bytes.getD 0 0 = 0x28 ∧ zlibSniff bytes = false :=
    ⟨first_byte h, zlibSniff_magic h (.inr (by decide))⟩
  have hlz4 (h : Marks .lz4Frame bytes) : bytes.getD 0 0 = 0x04 ∧ zlibSniff bytes = false :=
    ⟨first_byte h, zlibSniff_magic h (.inl (by decide))⟩
  have hzlib (h : Marks .zlib bytes) : zlibSniff bytes = true := h
  cases b <;> cases b' <;> simp_all [Marks]

variable {K : Libraries} {r : Registry} {bytes : List UInt8}

theorem Libraries.registrant_matches {b : Builtin} (h : (K.registrant b).Matches bytes) :
    ∃ magic, b.magic = some magic ∧ magic <+: bytes := by
  obtain ⟨magic, hmagic⟩ : ∃ magic, b.magic = some magic := ⟨_, h.same⟩
  have hsame := h.same
  refine ⟨magic, hmagic, ?_⟩
  rw [show (K.registrant b).magic = some magic from hmagic] at hsame
  rw [Option.some.inj hsame]
  exact List.take_prefix ..

theorem Libraries.matches_registrant {b : Builtin} {magic : List UInt8} (hmagic : b.magic = some magic)
    (hne : magic ≠ []) (h : magic <+: bytes) : (K.registrant b).Matches bytes := by
  have hlen : (K.registrant b).magicLen = magic.length := by
    rw [Registrant.magicLen, show (K.registrant b).magic = some magic from hmagic]
    rfl
  refine ⟨hlen ▸ List.length_pos_iff.mpr hne, ?_, ?_⟩
  · rw [hlen, show (K.registrant b).magicOffset.toNat = 0 from rfl, Nat.zero_add]
    exact h.length_le
  · rw [hlen, show (K.registrant b).magic = some magic from hmagic,
      show (K.registrant b).magicOffset.toNat = 0 from rfl, List.drop_zero]
    exact congrArg some (List.prefix_iff_eq_take.mp h)

theorem Libraries.registrant_marks {b : Builtin} (h : (K.registrant b).Matches bytes ∨
    (K.registrant b).accepts bytes bytes.length = true) : b.Marks bytes := by
  rcases h with h | h
  · obtain ⟨magic, hmagic, hprefix⟩ := registrant_matches h
    cases b <;> cases hmagic <;> exact hprefix
  · unfold Registrant.accepts at h
    rw [List.take_length] at h
    cases b with
    | zlib => exact h
    | _ => cases h

theorem Libraries.marks_registrant {b : Builtin} (h : b.Marks bytes) :
    (K.registrant b).Matches bytes ∨ (K.registrant b).accepts bytes bytes.length = true := by
  cases b with
  | gzip => exact .inl (matches_registrant rfl (by simp [gzipMagic]) h)
  | zstd => exact .inl (matches_registrant rfl (by simp) h)
  | lz4Frame => exact .inl (matches_registrant rfl (by simp) h)
  | zlib =>
    refine .inr ?_
    unfold Registrant.accepts
    rw [List.take_length]
    exact h
  | identity => exact h.elim
  | deflateRaw => exact h.elim
  | lz4Block => exact h.elim

namespace Package

variable {levels : Registrant → AbstractLevels}

/-- No codec of another package claims the bytes. -/
def Unclaimed (K : Libraries) (r : Registry) (bytes : List UInt8) : Prop :=
  ∀ e ∈ r.entries, e.Matches bytes ∨ e.accepts bytes bytes.length = true → ∃ b, e = K.registrant b

/-- What `zu_sniff` answers where this package is the only one that may know. -/
theorem zuSniff_builtins (h : K.Loaded r) (hword : bytes.length < wordSize)
    (hours : Unclaimed K r bytes) :
    (∃ b : Builtin, b.Marks bytes ∧ r.zuSniff bytes bytes.length = (.ok, b.id)) ∨
      (∀ b : Builtin, ¬ b.Marks bytes) ∧
        r.zuSniff bytes bytes.length = (.errUnsupported, codecNone) := by
  have hknown {e : Registrant} (he : e ∈ r.entries)
      (hclaims : e.Matches bytes ∨ e.accepts bytes bytes.length = true) :
      ∃ b : Builtin, b.Marks bytes ∧ e.codec = b.id := by
    obtain ⟨b, rfl⟩ := hours e he hclaims
    exact ⟨b, Libraries.registrant_marks hclaims, Libraries.registrant_codec K b⟩
  have hcases := Registry.zuSniff_cases h.sound hword []
  rw [List.append_nil] at hcases
  rcases hcases with ⟨v, hv, hans⟩ | ⟨hnone, hans⟩
  · obtain ⟨b, hb, hid⟩ := hknown hv.mem (.inl hv.matches_)
    exact .inl ⟨b, hb, by rw [hans, hid]⟩
  · rw [hans]
    cases hfind : r.entries.find? fun v => v.accepts bytes bytes.length with
    | some v =>
      have haccepts := List.find?_some hfind
      obtain ⟨b, hb, hid⟩ := hknown (List.mem_of_find?_eq_some hfind) (.inr haccepts)
      exact .inl ⟨b, hb, congrArg (Prod.mk Status.ok) hid⟩
    | none =>
      refine .inr ⟨fun b hb => ?_, rfl⟩
      rcases Libraries.marks_registrant (K := K) hb with hm | ha
      · exact hnone _ (h.mem b) hm
      · exact List.find?_eq_none.mp hfind _ (h.mem b) ha

/-- The name of the codec that the bytes are marked as of. -/
theorem detect_marked (h : K.Loaded r) (hword : bytes.length < wordSize)
    (hours : Unclaimed K r bytes) {b : Builtin} (hb : b.Marks bytes) :
    detect levels r bytes = some b.name := by
  rcases zuSniff_builtins h hword hours with ⟨b', hb', hans⟩ | ⟨hnone, -⟩
  · obtain rfl := hb.unique hb'
    have hid : b.id ≠ codecNone := by cases b <;> decide
    have hsize : ¬ codecInfoSize < infoRequiredSize := by decide
    simp only [detect, hans]
    rw [if_neg (by simp [hid]), Registry.codecGetInfo, if_neg hsize, h.lookup b]
    rfl
  · exact absurd hb (hnone b)

/-- Where no codec of another package claims the bytes, `komp_detect` names the codec that they are
marked as of, and answers `NA` where they are marked as of none. -/
theorem kompDetect_marks (h : K.Loaded r) (hword : bytes.length < wordSize)
    (hours : Unclaimed K r bytes) :
    (∀ b : Builtin, kompDetect levels r (.raw bytes) = .ok (some b.name) ↔ b.Marks bytes) ∧
      (kompDetect levels r (.raw bytes) = .ok none ↔ ∀ b : Builtin, ¬ b.Marks bytes) := by
  have hname {b b' : Builtin} (heq : b.name = b'.name) : b = b' := by
    by_contra hne
    exact (Builtin.apart hne).2 (.inl (congrArg some heq))
  rcases zuSniff_builtins h hword hours with ⟨b, hb, -⟩ | ⟨hnone, hans⟩
  · have hdetect : kompDetect levels r (.raw bytes) = .ok (some b.name) :=
      congrArg Except.ok (detect_marked h hword hours hb)
    rw [hdetect]
    refine ⟨fun b' => ⟨fun heq => ?_, fun hb' => ?_⟩, fun heq => ?_, fun hno => absurd hb (hno b)⟩
    · obtain rfl := hname (Option.some.inj (Except.ok.inj heq))
      exact hb
    · rw [hb.unique hb']
    · cases heq
  · have hdetect : kompDetect levels r (.raw bytes) = .ok none := by
      simp only [kompDetect, checkRaw, detect, hans]
      rw [if_pos (.inl (by simp))]
    rw [hdetect]
    refine ⟨fun b' => ⟨fun heq => ?_, fun hb' => absurd hb' (hnone b')⟩, fun _ => hnone, fun _ => rfl⟩
    cases heq

theorem unclaimed_builtins (K : Libraries) (bytes : List UInt8) :
    Unclaimed K K.registerBuiltins.2 bytes := by
  intro e he _
  rw [(Libraries.registerBuiltins_ok K).2] at he
  obtain ⟨b, -, rfl⟩ := List.mem_map.mp he
  exact ⟨b, rfl⟩

theorem loaded_builtins (K : Libraries) : K.Loaded K.registerBuiltins.2 := ⟨[], rfl⟩

/-- A zlib header that asks for a dictionary, and one byte of it. -/
theorem kompDetect_marks_dictionary :
    kompDetect builtinLevels Libraries.ref.registerBuiltins.2 (.raw [0x78, 0xBB]) =
        .ok (some (Builtin.name .zlib)) ∧
      kompDetect builtinLevels Libraries.ref.registerBuiltins.2 (.raw [0x78]) = .ok none := by
  have hloaded := loaded_builtins Libraries.ref
  refine ⟨((kompDetect_marks hloaded (by decide) (unclaimed_builtins _ _)).1 .zlib).mpr ?_,
    (kompDetect_marks hloaded (by decide) (unclaimed_builtins _ _)).2.mpr fun b => ?_⟩
  · show zlibSniff [0x78, 0xBB] = true
    decide
  · cases b <;> simp [Builtin.Marks, gzipMagic, FramesKind.magic, zlibSniff]

end Package

end Zukomp
