import Zukomp.Block.RoundTrip
import Zukomp.Block.Search

/-! # Blocks that decode to more than an `int` counts

liblz4's capacities are `int`s, so the search for a size ends at `INT_MAX`. A block of 8 MiB can
decode to more.
-/

namespace Zukomp

open Library

variable {Z : Lz4} {b x : List UInt8}

theorem lz4bTry_long (L : Lz4Blocks Z) (h : L.Block b x) (hb : b.length ≤ intMax)
    (hx : intMax < x.length) {ceiling cap : ℕ} (hceil : ceiling ≤ intMax) (hpos : 0 < cap)
    (hcap : cap ≤ ceiling) :
    Turn (fun next => (0 < next ∧ next ≤ ceiling) ∧ ceiling - next < ceiling - cap)
      (fun r => r = .error .errInvalidData) (lz4bTry Z b ceiling false cap) := by
  have hlen : (x.take cap).length = cap := by
    rw [List.length_take]
    omega
  unfold lz4bTry
  rw [L.short h hb (by omega) (by omega), L.capped h hb (by omega)]
  dsimp only
  rw [if_neg (by omega), if_neg Bool.false_ne_true]
  split_ifs
  · rfl
  · rw [turn_inl]
    omega
  · rw [turn_inl]
    omega

theorem lz4bSearch_long (L : Lz4Blocks Z) {s : Lz4bState} (h : L.Block s.input x)
    (hn : s.input.length ≤ lz4MaxInputSize) (hx : intMax < x.length) (hmax : s.maxOutput = 0) :
    lz4bSearch Z s = .error .errInvalidData := by
  have hb : s.input.length ≤ intMax := hn.trans (by norm_num [lz4MaxInputSize, intMax])
  have hlimited : (lz4bCeiling s).2 = false :=
    Bool.eq_false_iff.mpr fun hl => ((lz4bCeiling_limited s).mp hl).1 hmax
  rw [lz4bSearch_eq]
  unfold Lz4bState.searchTurn
  rw [hlimited]
  exact runLoop_rule s.Capacity (fun r => r = Except.error Status.errInvalidData)
    (fun cap => s.outputBound - cap)
    (fun cap hcap => lz4bTry_long L h hb hx s.outputBound_le hcap.1 hcap.2) s.firstCap_capacity
    (by omega)

theorem lz4bDecoder_long (L : Lz4Blocks Z) (h : L.Block b x) (hn : b.length ≤ lz4MaxInputSize)
    (hx : intMax < x.length) {o : DecoderOpts} (hmax : o.maxOutput = 0)
    (hexp : o.hasExpected = false) {w : Window} (hw : w.input = b) :
    (lz4bDecoderProcess Z (lz4bNew false levelDefault (some o)) w .finish).1 = .errInvalidData := by
  have hgather := lz4bGather_fits (s := lz4bNew false levelDefault (some o)) (w := w)
    (by simpa [lz4bNew, hw] using hn)
  have hinput : (lz4bNew false levelDefault (some o)).input ++ w.input = b := hw
  have hsearch := lz4bSearch_long L
    (s := { lz4bNew false levelDefault (some o) with input := b }) h hn hx hmax
  have hexp' : ¬ (lz4bNew false levelDefault (some o)).hasExpected = true := by
    simpa [lz4bNew] using hexp
  have hdone : ¬ (lz4bNew false levelDefault (some o)).done = true := by simp [lz4bNew]
  unfold lz4bDecoderProcess
  rw [if_neg hdone, if_neg (by simp), if_neg hexp', hgather, hinput]
  dsimp only
  rw [if_neg (L.ne_nil h), hsearch]

/-! ## A library that knows one such block -/

/-- A letter, a match of it at distance 1 whose length takes `k` bytes of 255, and five letters
more. -/
def runBlock (k : ℕ) : List UInt8 :=
  [0x1F, 0x61, 0x01, 0x00] ++ List.replicate k 255 ++ [0x00, 0x50, 0x61, 0x61, 0x61, 0x61, 0x61]

def runText (k : ℕ) : List UInt8 := List.replicate (255 * k + 25) 0x61

@[simp] theorem length_runBlock (k : ℕ) : (runBlock k).length = k + 11 := by
  simp only [runBlock, List.length_append, List.length_cons, List.length_nil,
    List.length_replicate]
  omega

@[simp] theorem length_runText (k : ℕ) : (runText k).length = 255 * k + 25 :=
  List.length_replicate

theorem runBlock_ne (k : ℕ) (x : List UInt8) : lz4Literals x ≠ runBlock k := by
  intro h
  have hrun := lz4LiteralRun_literals x
  rw [h, runBlock, List.cons_append, List.cons_append, lz4LiteralRun, if_neg (by decide)] at hrun
  split_ifs at hrun with htoken
  simp only [UInt8.reduceToNat] at htoken
  omega

def runLz4 (k : ℕ) : Lz4 where
  compressFast := refLz4.compressFast
  compressHC := refLz4.compressHC
  decompressSafe b cap :=
    if b = runBlock k then if (runText k).length ≤ cap then some (runText k) else none
    else refLz4.decompressSafe b cap
  decompressPartial b cap :=
    if b = runBlock k then some ((runText k).take cap) else refLz4.decompressPartial b cap

def runLz4Blocks (k : ℕ) : Lz4Blocks (runLz4 k) where
  Block c y := c = runBlock k ∧ y = runText k ∨ refLz4Blocks.Block c y
  fast accel {y} hy := by
    obtain ⟨c, hc, hblock, hle⟩ := refLz4Blocks.fast accel hy
    exact ⟨c, hc, .inr hblock, hle⟩
  hc level {y} hy := by
    obtain ⟨c, hc, hblock, hle⟩ := refLz4Blocks.hc level hy
    exact ⟨c, hc, .inr hblock, hle⟩
  ne_nil := by
    rintro c y (⟨rfl, -⟩ | h)
    · simp [runBlock]
    · exact refLz4Blocks.ne_nil h
  expands := by
    rintro c y (⟨rfl, rfl⟩ | h)
    · rw [length_runBlock, length_runText]
      omega
    · exact refLz4Blocks.expands h
  safe := by
    rintro c y cap (⟨rfl, rfl⟩ | h) hc hcap hy
    · change (if runBlock k = runBlock k then _ else _) = _
      rw [if_pos rfl, if_pos hy]
    · have hne : c ≠ runBlock k := fun he => runBlock_ne k y (h.symm.trans he)
      change (if c = runBlock k then _ else _) = _
      rw [if_neg hne]
      exact refLz4Blocks.safe h hc hcap hy
  short := by
    rintro c y cap (⟨rfl, rfl⟩ | h) hc hcap hy
    · change (if runBlock k = runBlock k then _ else _) = _
      rw [if_pos rfl, if_neg (Nat.not_le.mpr hy)]
    · have hne : c ≠ runBlock k := fun he => runBlock_ne k y (h.symm.trans he)
      change (if c = runBlock k then _ else _) = _
      rw [if_neg hne]
      exact refLz4Blocks.short h hc hcap hy
  capped := by
    rintro c y cap (⟨rfl, rfl⟩ | h) hc hcap
    · exact if_pos rfl
    · have hne : c ≠ runBlock k := fun he => runBlock_ne k y (h.symm.trans he)
      change (if c = runBlock k then _ else _) = _
      rw [if_neg hne]
      exact refLz4Blocks.capped h hc hcap

end Zukomp
