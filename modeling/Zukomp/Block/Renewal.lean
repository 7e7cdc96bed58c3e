import Zukomp.Block.RoundTrip
import Zukomp.Core.Renewal

/-! # Resets of lz4-block

`zu_int_lz4b_clear` drops the gathered input and the stage. All that is left of the state is
what the reset itself sets or what never changes.
-/

namespace Zukomp

open Library

variable {Z : Lz4}

/-- What no call changes. -/
structure Lz4bSettings where
  encoder : Bool
  level : ℤ
  maxOutput : UInt64
  hasExpected : Bool
  expected : UInt64

def Lz4bState.settings (s : Lz4bState) : Lz4bSettings :=
  ⟨s.encoder, s.level, s.maxOutput, s.hasExpected, s.expected⟩

theorem lz4bGather_settings (s : Lz4bState) (w : Window) :
    (lz4bGather s w).2.1.settings = s.settings := by
  obtain ⟨st, u, heq, -, -⟩ := lz4bGather_eq s w
  rw [heq]
  rfl

theorem lz4bHold_settings (s : Lz4bState) (w : Window) :
    (lz4bHold s w).2.1.settings = s.settings := by
  have hgather := lz4bGather_settings s w
  unfold lz4bHold
  split
  · next heq =>
    rw [heq] at hgather
    exact hgather
  · exact hgather

theorem lz4bDecoder_settings (s : Lz4bState) (w : Window) (mode : Flush) :
    (lz4bDecoderProcess Z s w mode).2.1.settings = s.settings := by
  have hgather := lz4bGather_settings s w
  unfold lz4bDecoderProcess
  split_ifs
  · rfl
  · exact lz4bHold_settings s w
  · rfl
  · rfl
  · rfl
  · split <;> rfl
  · split
    · next heq =>
      rw [heq] at hgather
      split_ifs
      · exact hgather
      · split <;> exact hgather
    · exact hgather
  · split
    · next heq =>
      rw [heq] at hgather
      split_ifs
      · exact hgather
      · split <;> exact hgather
    · exact hgather

theorem lz4bEncoder_settings (s : Lz4bState) (w : Window) (mode : Flush) :
    (lz4bEncoderProcess Z s w mode).2.1.settings = s.settings := by
  have hgather := lz4bGather_settings s w
  unfold lz4bEncoderProcess
  split_ifs
  · rfl
  · exact lz4bHold_settings s w
  · split <;> rfl
  · split
    · next heq =>
      rw [heq] at hgather
      split_ifs
      · exact hgather
      · split <;> exact hgather
    · exact hgather

theorem Lz4bState.clear_eq {s t : Lz4bState} (h : s.settings = t.settings) : s.clear = t.clear := by
  obtain ⟨_, _, _, _, _, _, _, _⟩ := s
  obtain ⟨_, _, _, _, _, _, _, _⟩ := t
  cases h
  rfl

/-- The settings of a decoder that come from no option, and those of an encoder. -/
def Lz4bState.Decodes (s : Lz4bState) : Prop :=
  s.settings.encoder = false ∧ s.settings.level = levelDefault

def Lz4bState.EncodesAt (level : ℤ) (s : Lz4bState) : Prop :=
  s.settings = ⟨true, level, 0, false, 0⟩

theorem Lz4bState.Decodes.process {s : Lz4bState} (h : s.Decodes) (w : Window) (mode : Flush) :
    (lz4bDecoderProcess Z s w mode).2.1.Decodes := by
  rw [Decodes, lz4bDecoder_settings]
  exact h

theorem Lz4bState.EncodesAt.process {s : Lz4bState} {level : ℤ} (h : s.EncodesAt level)
    (w : Window) (mode : Flush) : (lz4bEncoderProcess Z s w mode).2.1.EncodesAt level := by
  rw [EncodesAt, lz4bEncoder_settings]
  exact h

theorem Lz4bState.Decodes.reset_eq {s : Lz4bState} (h : s.Decodes) (o : DecoderOpts) :
    (lz4bDecoderReset s o).2 = lz4bNew false levelDefault (some o) := by
  refine clear_eq (t := lz4bNew false levelDefault (some o)) ?_
  simp only [settings, lz4bNew]
  rw [show s.encoder = false from h.1, show s.level = levelDefault from h.2]

theorem Lz4bState.EncodesAt.reset_eq {s : Lz4bState} {level : ℤ} (h : s.EncodesAt level)
    (o : EncoderOpts) :
    (lz4bEncoderReset s o).2 = lz4bNew true (levelAfter level o.level) none := by
  refine clear_eq (t := lz4bNew true (levelAfter level o.level) none) ?_
  have hlevel : (if o.level ≠ levelDefault then o.level else s.level) =
      levelAfter level o.level := by
    have hs : s.level = level := congrArg Lz4bSettings.level h
    rw [hs, levelAfter, ite_not]
  have hsame := congrArg (fun t : Lz4bSettings => { t with level := levelAfter level o.level }) h
  rw [← hlevel] at hsame ⊢
  exact hsame

def lz4BlockDecoderRenewal (Z : Lz4) : DecoderRenewal (lz4BlockCodec Z) where
  process := lz4bDecoderProcess Z
  lifted := lz4BlockCodec_decodes Z
  Inv := Lz4bState.Decodes
  Same s t := s = t
  inv_new h := by
    cases h
    exact ⟨rfl, rfl⟩
  inv_process w mode h := h.process w mode
  inv_reset o hv h := by
    cases hv
    exact h
  same_process w mode h := by
    cases h
    exact ⟨rfl, rfl, rfl⟩
  renews hv h _ hnew := by
    cases hv
    cases hnew
    exact h.reset_eq _

def lz4BlockEncoderRenewal (Z : Lz4) : EncoderRenewal (lz4BlockCodec Z) where
  process := lz4bEncoderProcess Z
  lifted := lz4BlockCodec_encodes Z
  Inv := Lz4bState.EncodesAt
  Same s t := s = t
  Clean _ _ := True
  Unused _ := True
  unused_clean _ _ := trivial
  unused_new _ := trivial
  unused_reset _ _ _ := trivial
  inv_new h := by
    cases h
    rfl
  inv_process w mode h := h.process w mode
  inv_reset {reset level s o} hv h _ := by
    cases hv
    exact (congrArg Lz4bState.settings (Lz4bState.EncodesAt.reset_eq h o)).trans rfl
  same_process w mode h := by
    cases h
    exact ⟨rfl, rfl, rfl⟩
  renews {reset level s o o' t} hv h _ _ hnew hlevel := by
    cases hv
    cases hnew
    rw [hlevel]
    exact Lz4bState.EncodesAt.reset_eq h o

end Zukomp
