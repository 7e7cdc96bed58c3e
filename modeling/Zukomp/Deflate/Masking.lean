import Zukomp.Deflate.Delivery

/-! # Ceilings and a codec's own errors

Once a ceiling is reached the driver takes unread input for output that does not fit,
also when the codec has just failed for another reason.
-/

namespace Zukomp

open Library

variable {v : CodecVtable}

/-- The output is at its ceiling and the caller's window is not full, so the codec is shown
a window of no room. -/
def Decoder.Spent (d : Decoder v) (buf : Buffer) : Prop :=
  ∃ C status, d.opts.ceiling = some (C, status) ∧ C.toNat ≤ d.totalOut.toNat ∧ 0 < buf.availOut

theorem Decoder.spent_iff (d : Decoder v) (buf : Buffer) :
    d.Spent buf ↔ (d.allowance buf.availOut).2 = true ∧ (d.allowance buf.availOut).1 = 0 := by
  cases hc : d.opts.ceiling with
  | none => simp [Spent, hc, d.allowance_none hc]
  | some c =>
    obtain ⟨C, status⟩ := c
    simp only [Spent, hc, d.allowance_some hc, Option.some.injEq, Prod.mk.injEq,
      decide_eq_true_eq]
    constructor
    · rintro ⟨_, _, ⟨rfl, rfl⟩, hle, hroom⟩
      omega
    · rintro ⟨hlt, hzero⟩
      exact ⟨C, status, ⟨rfl, rfl⟩, by omega, by omega⟩

/-- A codec's error within the ceilings is the caller's, except that at a reached ceiling
with input left over it is reported as the crossing of that ceiling. -/
theorem codecError_kept {d : Decoder v} {buf : Buffer} {mode : Flush}
    (hbuf : checkBuffer buf = .ok) (hfin : d.finished = false)
    (hmode : mode = .flush → v.can canFlush) (hratio : d.opts.maxRatio = 0) {st : Status}
    {s : v.Dec} {after : Buffer}
    (hcodec : v.decoderProcess d.state (d.shown buf) mode = (st, s, after)) (herr : st.isError)
    (hadm : d.opts.Admits (decoderProcess d buf mode).2.1.totalOut) :
    (decoderProcess d buf mode).1 = st ↔
      ¬ (d.Spent buf ∧ after.srcPos < after.srcSize ∧ d.opts.overStatus ≠ st) := by
  have hend : st ≠ .streamEnd := by
    rintro rfl
    cases herr
  have hneed : st ≠ .needOutput := by
    rintro rfl
    cases herr
  simp only [decoderProcess, decoderCall_codec hbuf hfin hmode, hcodec] at hadm ⊢
  simp only [Decoder.settle] at hadm ⊢
  have hspent := d.spent_iff buf
  set d' : Decoder v := { d with
    state := s, finished := st == .streamEnd
    totalIn := d.totalIn + UInt64.ofNat (cursorSub after.srcPos buf.srcPos)
    totalOut := d.totalOut + UInt64.ofNat (cursorSub after.dstPos buf.dstPos) }
  rw [d'.verdict_of_admitted hratio hadm, if_neg (by simp [hend]), if_neg (by simp [hend]),
    if_neg (by simp [hneed])]
  by_cases hmasked : d.Spent buf ∧ after.srcPos < after.srcSize
  · obtain ⟨hcap, hzero⟩ := hspent.mp hmasked.1
    rw [if_pos ⟨hcap, hzero, hend, by simpa using hmasked.2⟩]
    simp [Verdict.status, hmasked, d']
  · rw [if_neg (fun h => hmasked ⟨hspent.mpr ⟨h.1, h.2.1⟩, by simpa using h.2.2.2⟩)]
    simp only [Verdict.status, true_iff]
    tauto

def zlibOpts : DecoderOpts :=
  { structSize := decoderOptsSize, codec := codecZlib, maxOutput := 1, maxRatio := 0
    flags := 0, expectedSize := 0 }

def zlibOnly : CodecId → Option CodecVtable := fun _ => some (zlibCodec (refMiniz fixedA))

def zlibDecoder : Decoder (deflateVtable (refMiniz fixedA) codecZlib .zlib) where
  state := {
    mz := ⟨0, 0, false⟩, mzCalled := false, encoder := false, wrap := .zlib, state := .header
    level := mzDefaultLevel, hdr := List.replicate gzipHeaderLen 0, hdrLen := 2, hdrPos := 0
    tail := List.replicate 8 0, tailLen := 4, tailPos := 0, checksum := 1, uncompressed := 0
    gz := gzipHeaderInit, decFlags := 0, probeMagic := false }
  opts := zlibOpts
  finished := false
  totalIn := 0
  totalOut := 0

theorem zlibDecoder_new : decoderNew zlibOnly zlibOpts = .ok ⟨_, zlibDecoder⟩ := rfl

/-- The handle after the header and the body have been read, and their one byte delivered. -/
def atTrailer : Session (deflateVtable (refMiniz fixedA) codecZlib .zlib) :=
  (Session.start zlibDecoder).next (.process (.ofParts [0x78, 0x9C, 0x4B, 0x04, 0x00] 8) .run)

/-- A wrong checksum in the next call, with one byte after it, is reported as the limit. -/
theorem checksumError_masked :
    ¬ ∀ (v : CodecVtable) (lookup : CodecId → Option CodecVtable) (opts : DecoderOpts)
      (d : Decoder v) (_ : decoderNew lookup opts = .ok ⟨v, d⟩) (s : Session v)
      (_ : Session.Reached d s) (_ : s.dec.opts.maxRatio = 0) (buf : Buffer) (mode : Flush)
      (_ : checkBuffer buf = .ok) (_ : s.dec.finished = false) (_ : mode ≠ .flush)
      (_ : (v.decoderProcess s.dec.state (s.dec.shown buf) mode).1.isError)
      (_ : s.dec.opts.Admits (decoderProcess s.dec buf mode).2.1.totalOut),
      (decoderProcess s.dec buf mode).1 =
        (v.decoderProcess s.dec.state (s.dec.shown buf) mode).1 := by
  intro hall
  have h := hall _ zlibOnly zlibOpts zlibDecoder zlibDecoder_new atTrailer (.call .new _ trivial)
    rfl (.ofParts [0, 0, 0, 0, 0xFF] 8) .run rfl rfl (by decide) (by decide)
    ⟨fun _ => by decide, by decide⟩
  exact absurd h (by decide)

/-- Without that byte it is reported as what it is. -/
theorem codecError_kept_zlib :
    (decoderProcess atTrailer.dec (.ofParts [0, 0, 0, 0] 8) .run).1 = .errChecksum := by
  have hcodec : (deflateVtable (refMiniz fixedA) codecZlib .zlib).decoderProcess
      atTrailer.dec.state (atTrailer.dec.shown (.ofParts [0, 0, 0, 0] 8)) .run =
      (.errChecksum, _, _) := Prod.ext (by decide) rfl
  refine (codecError_kept rfl rfl (by decide) rfl hcodec rfl ⟨fun _ => by decide, by decide⟩).mpr
    fun h => absurd h.2.1 (by decide)

end Zukomp
