import Mathlib.Tactic

/-! # The checksums of the wrappers

`mz_crc32` and `mz_adler32` as miniz computes them, and the byte orders in which the
trailers store them. Adler-32 defers its two reductions to the end of a block; the
blocks are short enough that nothing overflows, so it is the Adler-32 of RFC 1950.
-/

namespace Zukomp

/-! ## CRC-32 -/

/-- One bit of the reflected division by the CRC-32 polynomial. -/
def crcBit (c : UInt32) : UInt32 := if c &&& 1 = 1 then (c >>> 1) ^^^ 0xEDB88320 else c >>> 1

/-- `s_crc_table`: entry `n` is `n` after eight bits of the division. -/
def crcTable (n : UInt32) : UInt32 :=
  crcBit (crcBit (crcBit (crcBit (crcBit (crcBit (crcBit (crcBit n)))))))

example : crcTable 1 = 0x77073096 ∧ crcTable 128 = 0xEDB88320 ∧ crcTable 255 = 0x2D02EF8D := by
  decide

def crcByte (c : UInt32) (b : UInt8) : UInt32 :=
  (c >>> 8) ^^^ crcTable ((c ^^^ b.toUInt32) &&& 0xFF)

def mzCrc32 (crc : UInt32) (bytes : List UInt8) : UInt32 :=
  ~~~ (bytes.foldl crcByte (crc ^^^ 0xFFFFFFFF))

theorem xor_ones (c : UInt32) : c ^^^ 0xFFFFFFFF = ~~~ c := by
  apply UInt32.toBitVec_inj.mp
  change c.toBitVec ^^^ BitVec.allOnes 32 = ~~~ c.toBitVec
  exact BitVec.xor_allOnes

@[simp] theorem mzCrc32_nil (crc : UInt32) : mzCrc32 crc [] = crc := by
  simp [mzCrc32, xor_ones]

theorem mzCrc32_append (crc : UInt32) (a b : List UInt8) :
    mzCrc32 (mzCrc32 crc a) b = mzCrc32 crc (a ++ b) := by
  simp [mzCrc32, xor_ones]

theorem mzCrc32_cons (crc : UInt32) (b : UInt8) (x : List UInt8) :
    mzCrc32 (mzCrc32 crc [b]) x = mzCrc32 crc (b :: x) := mzCrc32_append crc [b] x

/-! ## Adler-32 -/

/-- The sums of one block, their reductions still to come. -/
def adlerRun (s : UInt32 × UInt32) (bytes : List UInt8) : UInt32 × UInt32 :=
  bytes.foldl (fun s b => (s.1 + b.toUInt32, s.2 + (s.1 + b.toUInt32))) s

def adlerBlock (s : UInt32 × UInt32) (bytes : List UInt8) : UInt32 × UInt32 :=
  ((adlerRun s bytes).1 % 65521, (adlerRun s bytes).2 % 65521)

/-- The blocks of 5552 bytes that follow the first, shorter one. -/
def adlerBlocks : ℕ → UInt32 × UInt32 → List UInt8 → UInt32 × UInt32
  | 0, s, _ => s
  | k + 1, s, bytes => adlerBlocks k (adlerBlock s (bytes.take 5552)) (bytes.drop 5552)

def mzAdler32 (adler : UInt32) (bytes : List UInt8) : UInt32 :=
  if bytes = [] then adler
  else
    let first := bytes.length % 5552
    let s := adlerBlocks (bytes.length / 5552)
      (adlerBlock (adler &&& 0xFFFF, adler >>> 16) (bytes.take first)) (bytes.drop first)
    (s.2 <<< 16) + s.1

/-- One byte of the Adler-32 of RFC 1950. -/
def adlerStep (t : ℕ × ℕ) (b : UInt8) : ℕ × ℕ :=
  ((t.1 + b.toNat) % 65521, (t.2 + (t.1 + b.toNat)) % 65521)

def adlerPack (t : ℕ × ℕ) : UInt32 := UInt32.ofNat (t.2 * 65536 + t.1)

def adler32 (bytes : List UInt8) : UInt32 := adlerPack (bytes.foldl adlerStep (1, 0))

def AdlerReduced (t : ℕ × ℕ) : Prop := t.1 < 65521 ∧ t.2 < 65521

theorem AdlerReduced.foldl {t : ℕ × ℕ} (h : AdlerReduced t) (bytes : List UInt8) :
    AdlerReduced (bytes.foldl adlerStep t) := by
  induction bytes generalizing t with
  | nil => exact h
  | cons b bytes ih => exact ih ⟨Nat.mod_lt _ (by norm_num), Nat.mod_lt _ (by norm_num)⟩

/-- The sums of a block in exact integers. -/
def adlerExact (t : ℕ × ℕ) (bytes : List UInt8) : ℕ × ℕ :=
  bytes.foldl (fun t b => (t.1 + b.toNat, t.2 + (t.1 + b.toNat))) t

theorem adlerExact_mod (t u : ℕ × ℕ) (h1 : t.1 % 65521 = u.1 % 65521)
    (h2 : t.2 % 65521 = u.2 % 65521) (bytes : List UInt8) :
    (adlerExact t bytes).1 % 65521 = (bytes.foldl adlerStep u).1 % 65521 ∧
      (adlerExact t bytes).2 % 65521 = (bytes.foldl adlerStep u).2 % 65521 := by
  induction bytes generalizing t u with
  | nil => exact ⟨h1, h2⟩
  | cons b bytes ih =>
    simp only [adlerExact, List.foldl_cons]
    exact ih _ _ (by simp only [adlerStep]; omega) (by simp only [adlerStep]; omega)

/-- As long as the second sum stays in range, the words hold the exact sums. -/
theorem adlerRun_exact (s : UInt32 × UInt32) (bytes : List UInt8)
    (h : 2 * s.2.toNat + 2 * bytes.length * s.1.toNat + 255 * bytes.length * (bytes.length + 1)
      < 2 ^ 33) (h1 : s.1.toNat < 2 ^ 32) :
    ((adlerRun s bytes).1.toNat, (adlerRun s bytes).2.toNat) =
      adlerExact (s.1.toNat, s.2.toNat) bytes := by
  induction bytes generalizing s with
  | nil => rfl
  | cons b bytes ih =>
    have hb : b.toNat ≤ 255 := by
      have := b.toNat_lt
      omega
    set n := bytes.length with hn
    simp only [List.length_cons, ← hn] at h
    have hsum : 2 * s.2.toNat + 2 * s.1.toNat + 510 < 2 ^ 33 := by nlinarith
    have e1 : (s.1 + b.toUInt32).toNat = s.1.toNat + b.toNat := by
      rw [UInt32.toNat_add, UInt8.toNat_toUInt32, Nat.mod_eq_of_lt (by omega)]
    have e2 : (s.2 + (s.1 + b.toUInt32)).toNat = s.2.toNat + (s.1.toNat + b.toNat) := by
      rw [UInt32.toNat_add, e1, Nat.mod_eq_of_lt (by omega)]
    simp only [adlerRun, adlerExact, List.foldl_cons]
    have := ih (s.1 + b.toUInt32, s.2 + (s.1 + b.toUInt32)) (by simp only [e1, e2]; nlinarith)
      (by simp only [e1]; omega)
    simpa only [adlerRun, adlerExact, e1, e2] using this

/-- A block of at most 5552 bytes is that many steps of the Adler-32. -/
theorem adlerBlock_eq {t : ℕ × ℕ} (ht : AdlerReduced t) {s : UInt32 × UInt32}
    (hs : (s.1.toNat, s.2.toNat) = t) (bytes : List UInt8) (hlen : bytes.length ≤ 5552) :
    ((adlerBlock s bytes).1.toNat, (adlerBlock s bytes).2.toNat) = bytes.foldl adlerStep t := by
  obtain ⟨h1, h2⟩ := ht
  subst hs
  simp only at h1 h2
  have hrun := adlerRun_exact s bytes (by nlinarith) (by omega)
  have hmod := adlerExact_mod (s.1.toNat, s.2.toNat) (s.1.toNat, s.2.toNat) rfl rfl bytes
  have hred : AdlerReduced (bytes.foldl adlerStep (s.1.toNat, s.2.toNat)) :=
    AdlerReduced.foldl (t := (s.1.toNat, s.2.toNat)) ⟨h1, h2⟩ bytes
  rw [← hrun] at hmod
  simp only [Nat.mod_eq_of_lt hred.1, Nat.mod_eq_of_lt hred.2] at hmod
  simp only [adlerBlock, UInt32.toNat_mod]
  exact Prod.ext hmod.1 hmod.2

theorem adlerBlocks_eq {k : ℕ} {t : ℕ × ℕ} (ht : AdlerReduced t) {s : UInt32 × UInt32}
    (hs : (s.1.toNat, s.2.toNat) = t) (bytes : List UInt8) (hlen : bytes.length = 5552 * k) :
    ((adlerBlocks k s bytes).1.toNat, (adlerBlocks k s bytes).2.toNat) =
      bytes.foldl adlerStep t := by
  induction k generalizing t s bytes with
  | zero =>
    obtain rfl : bytes = [] := List.eq_nil_of_length_eq_zero (by omega)
    exact hs
  | succ k ih =>
    have hblock := adlerBlock_eq ht hs (bytes.take 5552) (by simp)
    rw [adlerBlocks, ih (AdlerReduced.foldl ht _) hblock (bytes.drop 5552) (by simp only [List.length_drop]; omega),
      ← List.foldl_append, List.take_append_drop]

theorem adlerPack_unpack {t : ℕ × ℕ} (ht : AdlerReduced t) :
    ((adlerPack t &&& 0xFFFF).toNat, (adlerPack t >>> 16).toNat) = t := by
  obtain ⟨h1, h2⟩ := ht
  have hpack : (adlerPack t).toNat = t.2 * 65536 + t.1 := by
    rw [adlerPack, UInt32.toNat_ofNat', Nat.mod_eq_of_lt (by omega)]
  refine Prod.ext ?_ ?_
  · simp only [UInt32.toNat_and, hpack]
    rw [show (0xFFFF : UInt32).toNat = 2 ^ 16 - 1 from rfl, Nat.and_two_pow_sub_one_eq_mod]
    omega
  · simp only [UInt32.toNat_shiftRight, hpack]
    rw [show (16 : UInt32).toNat % 32 = 16 from rfl, Nat.shiftRight_eq_div_pow]
    omega

/-- Whatever the blocks, `mz_adler32` takes one step for each byte. -/
theorem mzAdler32_eq {t : ℕ × ℕ} (ht : AdlerReduced t) (bytes : List UInt8) :
    mzAdler32 (adlerPack t) bytes = adlerPack (bytes.foldl adlerStep t) := by
  unfold mzAdler32
  split_ifs with hnil
  · rw [hnil, List.foldl_nil]
  · have hfirst := adlerBlock_eq ht (s := (adlerPack t &&& 0xFFFF, adlerPack t >>> 16))
      (adlerPack_unpack ht) (bytes.take (bytes.length % 5552))
      (by simp only [List.length_take]; omega)
    have hrest := adlerBlocks_eq (k := bytes.length / 5552) (AdlerReduced.foldl ht _) hfirst
      (bytes.drop (bytes.length % 5552)) (by simp only [List.length_drop]; omega)
    rw [← List.foldl_append, List.take_append_drop] at hrest
    have hred := AdlerReduced.foldl ht bytes
    rw [← hrest] at hred ⊢
    obtain ⟨h1, h2⟩ := hred
    simp only at h1 h2
    apply UInt32.toNat_inj.mp
    simp only [UInt32.toNat_add, UInt32.toNat_shiftLeft, adlerPack, UInt32.toNat_ofNat']
    rw [show (16 : UInt32).toNat % 32 = 16 from rfl, Nat.shiftLeft_eq]
    omega

theorem mzAdler32_append {t : ℕ × ℕ} (ht : AdlerReduced t) (a b : List UInt8) :
    mzAdler32 (mzAdler32 (adlerPack t) a) b = mzAdler32 (adlerPack t) (a ++ b) := by
  rw [mzAdler32_eq ht, mzAdler32_eq (ht.foldl a), mzAdler32_eq ht, List.foldl_append]

theorem mzAdler32_one (bytes : List UInt8) : mzAdler32 1 bytes = adler32 bytes :=
  mzAdler32_eq (t := (1, 0)) ⟨by norm_num, by norm_num⟩ bytes

/-! ## Byte orders -/

def be32 (c : UInt32) : List UInt8 :=
  [(c >>> 24).toUInt8, (c >>> 16).toUInt8, (c >>> 8).toUInt8, c.toUInt8]

def le32 (c : UInt32) : List UInt8 :=
  [c.toUInt8, (c >>> 8).toUInt8, (c >>> 16).toUInt8, (c >>> 24).toUInt8]

def readBE (b : List UInt8) : UInt32 :=
  ((b.getD 0 0).toUInt32 <<< 24) ||| ((b.getD 1 0).toUInt32 <<< 16) |||
    ((b.getD 2 0).toUInt32 <<< 8) ||| (b.getD 3 0).toUInt32

def readLE (b : List UInt8) : UInt32 :=
  (b.getD 0 0).toUInt32 ||| ((b.getD 1 0).toUInt32 <<< 8) |||
    ((b.getD 2 0).toUInt32 <<< 16) ||| ((b.getD 3 0).toUInt32 <<< 24)

@[simp] theorem length_be32 (c : UInt32) : (be32 c).length = 4 := rfl
@[simp] theorem length_le32 (c : UInt32) : (le32 c).length = 4 := rfl

theorem readBE_be32 (c : UInt32) (rest : List UInt8) : readBE (be32 c ++ rest) = c := by
  apply UInt32.toBitVec_inj.mp
  simp only [readBE, be32, List.cons_append, List.getD_cons_zero, List.getD_cons_succ, UInt32.toBitVec_or,
    UInt32.toBitVec_shiftLeft, UInt8.toBitVec_toUInt32, UInt32.toBitVec_toUInt8,
    UInt32.toBitVec_shiftRight]
  apply BitVec.eq_of_getLsbD_eq
  intro i hi
  interval_cases i <;> simp

theorem readLE_le32 (c : UInt32) (rest : List UInt8) : readLE (le32 c ++ rest) = c := by
  apply UInt32.toBitVec_inj.mp
  simp only [readLE, le32, List.cons_append, List.getD_cons_zero, List.getD_cons_succ,
    UInt32.toBitVec_or, UInt32.toBitVec_shiftLeft, UInt8.toBitVec_toUInt32,
    UInt32.toBitVec_toUInt8, UInt32.toBitVec_shiftRight]
  apply BitVec.eq_of_getLsbD_eq
  intro i hi
  interval_cases i <;> simp

theorem be32_readBE {t : List UInt8} (h : t.length = 4) (rest : List UInt8) :
    be32 (readBE (t ++ rest)) = t := by
  match t, h with
  | [a, b, c, d], _ =>
    simp only [be32, readBE, List.cons_append, List.getD_cons_zero, List.getD_cons_succ,
      List.cons.injEq, and_true]
    refine ⟨?_, ?_, ?_, ?_⟩ <;>
    · apply UInt8.toBitVec_inj.mp
      simp only [UInt32.toBitVec_toUInt8, UInt32.toBitVec_shiftRight, UInt32.toBitVec_or,
        UInt32.toBitVec_shiftLeft, UInt8.toBitVec_toUInt32]
      apply BitVec.eq_of_getLsbD_eq
      intro i hi
      interval_cases i <;> simp

theorem le32_readLE {t : List UInt8} (h : t.length = 4) (rest : List UInt8) :
    le32 (readLE (t ++ rest)) = t := by
  match t, h with
  | [a, b, c, d], _ =>
    simp only [le32, readLE, List.cons_append, List.getD_cons_zero, List.getD_cons_succ,
      List.cons.injEq, and_true]
    refine ⟨?_, ?_, ?_, ?_⟩ <;>
    · apply UInt8.toBitVec_inj.mp
      simp only [UInt32.toBitVec_toUInt8, UInt32.toBitVec_shiftRight, UInt32.toBitVec_or,
        UInt32.toBitVec_shiftLeft, UInt8.toBitVec_toUInt32]
      apply BitVec.eq_of_getLsbD_eq
      intro i hi
      interval_cases i <;> simp

/-- A word is read from its own bytes only. -/
theorem readBE_eq_iff {t : List UInt8} (h : t.length = 4) (rest : List UInt8) {c : UInt32} :
    readBE (t ++ rest) = c ↔ t = be32 c := by
  constructor
  · rintro rfl
    exact (be32_readBE h rest).symm
  · rintro rfl
    exact readBE_be32 c rest

theorem readLE_eq_iff {t : List UInt8} (h : t.length = 4) (rest : List UInt8) {c : UInt32} :
    readLE (t ++ rest) = c ↔ t = le32 c := by
  constructor
  · rintro rfl
    exact (le32_readLE h rest).symm
  · rintro rfl
    exact readLE_le32 c rest

end Zukomp
