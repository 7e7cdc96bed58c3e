import Zukomp.Block.Expected
import Zukomp.Core.Drain

/-! # What an lz4-block decoder holds back

Before `ZU_FINISH` the decoder only gathers, so a request for input comes from a decoder that has
decoded nothing.
-/

namespace Zukomp

variable {Z : Lz4} {s : Lz4bState} {w : Window} {mode : Flush}

theorem lz4bDrain_advances (s : Lz4bState) (w : Window) :
    Window.Advances w (lz4bDrain s w).2.2 :=
  ⟨_, _, .put (by simp)⟩

theorem lz4bGather_advances (s : Lz4bState) (w : Window) :
    Window.Advances w (lz4bGather s w).2.2 := by
  unfold lz4bGather
  by_cases hnil : w.input = []
  · rw [if_pos hnil]
    exact .refl w
  rw [if_neg hnil]
  split
  · exact .refl w
  · next need _ =>
    by_cases hlong : lz4MaxInputSize < need
    · rw [if_pos hlong]
      exact .refl w
    · rw [if_neg hlong]
      exact ⟨_, _, .take le_rfl⟩

theorem lz4bDecoder_advances (Z : Lz4) (s : Lz4bState) (w : Window) (mode : Flush) :
    Window.Advances w (lz4bDecoderProcess Z s w mode).2.2 := by
  have hgather := lz4bGather_advances s w
  have hdrain (s : Lz4bState) {w' : Window} (h : Window.Advances w w') :
      Window.Advances w (lz4bDrain s w').2.2 := h.trans (lz4bDrain_advances s w')
  unfold lz4bDecoderProcess
  split_ifs with hdone hmode hexp hlimit hmax hone hempty
  · exact lz4bDrain_advances s w
  · unfold lz4bHold
    split
    · next heq => rwa [heq] at hgather
    · exact hgather
  · exact .refl w
  · exact .refl w
  · exact .refl w
  · split
    · exact .refl w
    · next text htext =>
      have hfits : text.length ≤ (w.take w.input.length).room :=
        (lz4bExact_length htext).le.trans hone.2
      exact Window.Advances.trans ⟨_, _, .take le_rfl⟩ ⟨_, _, .put hfits⟩
  · split
    · next heq =>
      rw [heq] at hgather
      split_ifs
      · exact hgather
      · split
        · exact hgather
        · exact hdrain _ hgather
    · exact hgather
  · split
    · next heq =>
      rw [heq] at hgather
      split_ifs
      · exact hgather
      · split
        · exact hgather
        · exact hdrain _ hgather
    · exact hgather

theorem lz4bDecoder_gathers (hdone : s.done = false) (hmode : mode ≠ .finish) :
    (lz4bDecoderProcess Z s w mode).2.2.written = w.written ∧
      (lz4bDecoderProcess Z s w mode).2.1.done = false := by
  obtain ⟨st, u, heq, -, -⟩ := lz4bGather_eq s w
  have hhold : lz4bDecoderProcess Z s w mode = lz4bHold s w := by
    rw [lz4bDecoderProcess, if_neg (by simp [hdone]), if_pos hmode]
  rw [hhold, lz4bHold, heq]
  split
  · next h =>
    cases h
    exact ⟨rfl, hdone⟩
  · exact ⟨rfl, hdone⟩

theorem lz4bDrain_ne_needInput (s : Lz4bState) (w : Window) : (lz4bDrain s w).1 ≠ .needInput := by
  unfold lz4bDrain
  dsimp only
  split_ifs <;> simp

def lz4BlockDrain (Z : Lz4) : DecoderDrain (lz4BlockCodec Z) where
  process := lz4bDecoderProcess Z
  lifted := lz4BlockCodec_decodes Z
  advances := lz4bDecoder_advances Z
  Inv _ := True
  Quiet s := Lz4bState.done s = false
  Tells _ := True
  inv_new _ := trivial
  inv_process _ _ _ := trivial
  inv_reset _ _ _ := trivial
  quiet := by
    intro s w mode _ hq _ hmode
    exact lz4bDecoder_gathers hq hmode
  asks := by
    intro (s : Lz4bState) w _ hask _
    by_cases hdone : s.done = true
    · rw [lz4bDecoderProcess, if_pos hdone] at hask
      exact absurd hask (lz4bDrain_ne_needInput s w)
    · exact (lz4bDecoder_gathers (by simpa using hdone) (by simp)).2

end Zukomp
