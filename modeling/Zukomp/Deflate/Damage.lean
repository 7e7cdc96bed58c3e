import Zukomp.Deflate.RoundTrip
import Zukomp.Library.Checksum

/-! # Damage that the checksums show

The CRC-32 of gzip is the register of a division that four bytes fit in, and the two sums of Adler-32
tell two bytes apart. A decoder therefore never takes a text for the one that was written when it
differs from it in that many consecutive bytes, nor, in gzip, when it is of another length.
-/

namespace Zukomp

open Library

/-! ## CRC-32 -/

/-- The polynomial of `crcBit`, with the coefficients from the low end. -/
def crcPolynomial : BitVec 32 := 0xEDB88320#32

theorem crcBit_toBitVec (c : UInt32) : (crcBit c).toBitVec = divideBit crcPolynomial c.toBitVec := by
  have hlow : c.toBitVec.getLsbD 0 = decide (c &&& 1 = 1) := by
    have hiff : c &&& 1 = 1 ↔ c.toNat % 2 = 1 := by
      rw [← UInt32.toNat_inj, UInt32.toNat_and, UInt32.toNat_one, Nat.and_one_is_mod]
    rw [BitVec.getLsbD, Nat.testBit_zero, decide_eq_decide.mpr hiff]
    rfl
  unfold crcBit divideBit
  rw [hlow]
  by_cases h : c &&& 1 = 1
  · rw [if_pos h, if_pos (decide_eq_true h)]
    rfl
  · rw [if_neg h, if_neg (by simpa using h)]
    rfl

theorem crcTable_toBitVec (c : UInt32) :
    (crcTable c).toBitVec = divide crcPolynomial 8 c.toBitVec := by
  unfold crcTable
  simp only [crcBit_toBitVec]
  rfl

/-- Eight bits of the division: those of the low byte, and the rest moved down. -/
theorem divide_split (c : BitVec 32) :
    divide crcPolynomial 8 c = c >>> 8 ^^^ divide crcPolynomial 8 (c &&& 0xFF#32) := by
  have hhigh : ∀ i, 32 ≤ i + 8 → (c >>> 8).getLsbD i = false := by
    intro i hi
    rw [BitVec.getLsbD_ushiftRight, BitVec.getLsbD_of_ge c _ (by omega)]
  have hsplit : c = (c >>> 8) <<< 8 ^^^ (c &&& 0xFF#32) := by
    apply BitVec.eq_of_getLsbD_eq
    intro i hi
    interval_cases i <;> simp
  calc divide crcPolynomial 8 c
      = divide crcPolynomial 8 ((c >>> 8) <<< 8 ^^^ (c &&& 0xFF#32)) := by rw [← hsplit]
    _ = c >>> 8 ^^^ divide crcPolynomial 8 (c &&& 0xFF#32) := by
        rw [divide_xor, divide_shift 8 hhigh]

/-- A step of `mz_crc32` takes a byte into the register. -/
theorem crcByte_toBitVec (c : UInt32) (b : UInt8) :
    (crcByte c b).toBitVec = takeIn crcPolynomial c.toBitVec b.toBitVec := by
  have hbyte : (b.toBitVec.setWidth 32) >>> 8 = 0#32 := by
    apply BitVec.eq_of_getLsbD_eq
    intro i hi
    simp
  rw [crcByte, UInt32.toBitVec_xor, crcTable_toBitVec, takeIn,
    divide_split (c.toBitVec ^^^ b.toBitVec.setWidth 32), BitVec.ushiftRight_xor_distrib, hbyte,
    BitVec.xor_zero]
  rfl

theorem crcByte_foldl (c : UInt32) (x : List UInt8) :
    (x.foldl crcByte c).toBitVec =
      (x.map UInt8.toBitVec).foldl (takeIn crcPolynomial) c.toBitVec := by
  induction x generalizing c with
  | nil => rfl
  | cons b x ih => rw [List.foldl_cons, ih, crcByte_toBitVec, List.map_cons, List.foldl_cons]

/-- CRC-32 shows every burst of four bytes. -/
theorem crcByte_detects : Detects crcByte (fun _ => True) 4 := by
  have hregister := takeIn_detects (p := crcPolynomial) (k := 8) (n := 4) (by decide) (by decide)
  refine ⟨fun _ _ => trivial, fun {s t} b _ _ h => ?_, fun {s u v} _ hlen hle h => ?_⟩
  · have hstep := congrArg UInt32.toBitVec h
    rw [crcByte_toBitVec, crcByte_toBitVec] at hstep
    exact UInt32.toBitVec_inj.mp (hregister.undo b.toBitVec trivial trivial hstep)
  · have hfold := congrArg UInt32.toBitVec h
    rw [crcByte_foldl, crcByte_foldl] at hfold
    have hwords := hregister.apart trivial (by simpa using hlen) (by simpa using hle) hfold
    exact List.map_injective_iff.mpr (fun a b => UInt8.toBitVec_inj.mp) hwords

theorem mzCrc32_ne {x y : List UInt8} (h : Burst 4 x y) (crc : UInt32) :
    mzCrc32 crc x ≠ mzCrc32 crc y := by
  intro heq
  refine crcByte_detects.foldl_ne (s := crc ^^^ 0xFFFFFFFF) trivial h ?_
  have hnot := congrArg (fun c : UInt32 => ~~~ c) heq
  simpa [mzCrc32] using hnot

/-! ## Adler-32 -/

/-- Adler-32 shows every burst of two bytes. -/
theorem adlerStep_detects : Detects adlerStep AdlerReduced 2 := by
  refine ⟨fun _ _ => ⟨Nat.mod_lt _ (by norm_num), Nat.mod_lt _ (by norm_num)⟩,
    fun {s t} b hs ht h => ?_, fun {s u v} hs hlen hle h => ?_⟩
  · obtain ⟨hs₁, hs₂⟩ := hs
    obtain ⟨ht₁, ht₂⟩ := ht
    have h₁ := congrArg Prod.fst h
    have h₂ := congrArg Prod.snd h
    simp only [adlerStep] at h₁ h₂
    exact Prod.ext (by omega) (by omega)
  · obtain ⟨hs₁, hs₂⟩ := hs
    rcases u with _ | ⟨b, _ | ⟨b', u⟩⟩
    · exact (List.length_eq_zero_iff.mp hlen.symm).symm
    · obtain ⟨c, rfl⟩ := List.length_eq_one_iff.mp hlen.symm
      have hb := b.toNat_lt
      have hc := c.toNat_lt
      have h₁ := congrArg Prod.fst h
      simp only [List.foldl_cons, List.foldl_nil, adlerStep] at h₁
      rw [UInt8.toNat_inj.mp (show b.toNat = c.toNat by omega)]
    · obtain rfl : u = [] := List.length_eq_zero_iff.mp (by simpa using hle)
      obtain ⟨c, c', rfl⟩ := List.length_eq_two.mp hlen.symm
      have hb := b.toNat_lt
      have hb' := b'.toNat_lt
      have hc := c.toNat_lt
      have hc' := c'.toNat_lt
      have h₁ := congrArg Prod.fst h
      have h₂ := congrArg Prod.snd h
      simp only [List.foldl_cons, List.foldl_nil, adlerStep] at h₁ h₂
      -- the first sums agree at the end, so the second differ by the first byte
      have hfirst : b.toNat = c.toNat := by omega
      have hsecond : b'.toNat = c'.toNat := by omega
      rw [UInt8.toNat_inj.mp hfirst, UInt8.toNat_inj.mp hsecond]

theorem adlerPack_injective {s t : ℕ × ℕ} (hs : AdlerReduced s) (ht : AdlerReduced t)
    (h : adlerPack s = adlerPack t) : s = t := by
  rw [← adlerPack_unpack hs, ← adlerPack_unpack ht, h]

theorem adler32_ne {x y : List UInt8} (h : Burst 2 x y) : adler32 x ≠ adler32 y := by
  have hone : AdlerReduced (1, 0) := ⟨by norm_num, by norm_num⟩
  intro heq
  exact adlerStep_detects.foldl_ne hone h
    (adlerPack_injective (hone.foldl x) (hone.foldl y) heq)

/-! ## Trailers -/

theorem le32_injective {c c' : UInt32} (h : le32 c = le32 c') : c = c' := by
  rw [← readLE_le32 c [], h, readLE_le32]

theorem be32_injective {c c' : UInt32} (h : be32 c = be32 c') : c = c' := by
  rw [← readBE_be32 c [], h, readBE_be32]

namespace WrapKind

/-- The bytes in a row whose change the trailer shows. -/
def burst : WrapKind → ℕ
  | .none => 0
  | .zlib => 2
  | .gzip => 4

/-- `y` is a text that the trailer of `x` cannot pass for. -/
def Damaged (wrap : WrapKind) (x y : List UInt8) : Prop :=
  Burst wrap.burst x y ∨ wrap = .gzip ∧ UInt32.ofNat x.length ≠ UInt32.ofNat y.length

theorem tailOf_ne {wrap : WrapKind} {x y : List UInt8} (h : wrap.Damaged x y) :
    wrap.tailOf x ≠ wrap.tailOf y := by
  cases wrap with
  | none =>
    rcases h with ⟨a, u, v, z, -, -, hlen, hle, hne⟩ | ⟨hwrap, -⟩
    · have hu : u = [] := List.length_eq_zero_iff.mp (Nat.le_zero.mp hle)
      have hv : v = [] := List.length_eq_zero_iff.mp (by rw [← hlen, hu]; rfl)
      exact absurd (hu.trans hv.symm) hne
    · cases hwrap
  | zlib =>
    rcases h with hburst | ⟨hwrap, -⟩
    · exact fun heq => adler32_ne hburst (be32_injective heq)
    · cases hwrap
  | gzip =>
    intro heq
    obtain ⟨hsum, hsize⟩ := List.append_inj heq rfl
    rcases h with hburst | ⟨-, hlength⟩
    · exact mzCrc32_ne hburst 0 (le32_injective hsum)
    · exact hlength (le32_injective hsize)

end WrapKind

/-! ## Decoding damaged members -/

variable {M : Miniz} {Body : Progressive UInt8 → Prop} {codec : CodecId} {wrap : WrapKind}
  {lookup : CodecId → Option CodecVtable} {opts : DecoderOpts}
  {d : Decoder (deflateVtable M codec wrap)} {chunks : List (List UInt8)} {x : List UInt8}

/-- A member whose body decodes to another text than its trailer was made for: every split of it, to
any windows, ends in an error, which is `ZU_ERR_CHECKSUM` exactly if no call starves the engine. -/
theorem damage_detected (I : Inflates M.inflate Body)
    (hnew : decoderNew lookup opts = .ok ⟨deflateVtable M codec wrap, d⟩) {head : List UInt8}
    {c : Progressive UInt8} (hhead : wrap.ValidHead head) (hbody : Body c)
    (hdamaged : wrap.Damaged x c.text) (hnone : d.opts.ceiling = none)
    (hratio : d.opts.maxRatio = 0) (hchunks : chunks.flatten = head ++ (c.code ++ wrap.tailOf x))
    (ws : Windows) (room : ℕ) :
    (∃ e, Returns (feedTurn ws) (Feed.start d room chunks) e ∧
      (e.status = .errChecksum ∨ e.status = .errInvalidData)) ∧
    (Returns (feedTurn ws) (Feed.start d room chunks) ⟨.errChecksum, c.text⟩ ↔
      ∀ f, Reaches (feedTurn ws) (Feed.start d room chunks) f → ¬ StarvedAt f) := by
  have htail : (wrap.tailOf x).length = tailLength wrap := wrap.length_tailOf x
  have hends := member_ends I hnew hhead hbody htail hnone hratio hchunks ws room
  rw [if_neg (WrapKind.tailOf_ne hdamaged)] at hends
  refine ⟨?_, hends⟩
  rcases member_cases I hnew hhead hbody htail hnone hratio hchunks ws room with
    ⟨f, written, hreach, -, hbad⟩ | ⟨hnever, -⟩
  · exact ⟨_, ⟨f, hreach, hbad⟩, .inr rfl⟩
  · exact ⟨_, hends.mpr hnever, .inl rfl⟩

/-- The letter `a` under the trailer of `b`. -/
theorem damage_detected_letter :
    Returns (feedTurn byteWindows) (Feed.start (pairDecoder fixedA .gzip) 1
      [gzipWriteHeader ++ (fixedA.code ++ WrapKind.gzip.tailOf [0x62])])
        ⟨.errChecksum, [0x61]⟩ := by
  have hdamaged : WrapKind.gzip.Damaged [0x62] fixedA.text :=
    .inl ⟨[], [0x62], [0x61], [], rfl, rfl, rfl, by decide, by decide⟩
  have I : Inflates (pairMiniz fixedA).inflate (· = fixedA) := refInflates fixedA
  have hflat : [gzipWriteHeader ++ (fixedA.code ++ WrapKind.gzip.tailOf [0x62])].flatten =
      gzipWriteHeader ++ (fixedA.code ++ WrapKind.gzip.tailOf [0x62]) := List.flatten_singleton
  have hbytes : [gzipWriteHeader ++ (fixedA.code ++ WrapKind.gzip.tailOf [0x62])].flatten =
      Member.codes [⟨gzipWriteHeader, fixedA, WrapKind.gzip.tailOf [0x62]⟩] ++ [] := by
    rw [hflat]
    simp [Member.code]
  refine (damage_detected I (pairDecoder_new fixedA .gzip) gzipWriteHeader_valid rfl hdamaged
    (pairDecoder_unlimited ..) rfl hflat byteWindows 1).2.mpr fun f hf => ?_
  exact tailed_not_starvedAt I (pairDecoder_new fixedA .gzip)
    (single_tailed gzipWriteHeader_valid rfl (WrapKind.gzip.length_tailOf _))
    (pairDecoder_unlimited ..) rfl hbytes byteWindows 1
    (by simp [mzClamp, gzipWriteHeader, fixedA, tailLength]) hf

end Zukomp
