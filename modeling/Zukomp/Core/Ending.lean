import Zukomp.Core.Progress
import Zukomp.Core.Whole

/-! # The drive loops end

The whole-buffer loop and the one-shot loop call a handle again as long as it asks for more. Around
a handle that keeps the progress contract both end, and their own no-progress test never fires.
-/

namespace Zukomp

open Library

section Drives

variable {η : Type} {g : Gauge η} {h : η} {buf : Buffer} {mode : Flush}

theorem Drives.asks {r : Status × η × Buffer} (hd : Drives g h buf mode r)
    (herr : r.1.isError = false) (hend : r.1 ≠ .streamEnd) : r.1 = .needInput ∨ r.1 = .needOutput := by
  have hok := hd.promises.not_ok
  cases hst : r.1 <;> simp_all [Status.isError]

end Drives

/-! ## The whole-buffer loop -/

section Whole

variable {η : Type} {r : RunOpts}

/-- A reservation fails for want of memory only. -/
theorem reserve_error {o : OutBuf} {extra : ℕ} {st : Status} (h : reserve o extra = .error st) :
    st = .errMemory := by
  have hadd {a b : ℕ} {st : Status} (h : sizeAdd a b = .error st) : st = .errMemory := by
    unfold sizeAdd at h
    split_ifs at h
    exact (Except.error.inj h).symm
  unfold reserve at h
  split at h
  · cases h
    exact hadd ‹_›
  · split_ifs at h
    split at h
    · next hgrow =>
      cases h
      unfold grow at hgrow
      split at hgrow
      · cases hgrow
        exact hadd ‹_›
      · cases hgrow
    · cases h

namespace Whole

/-- What is left to read, and what is held. -/
def left (Held : η → ℕ) (x : Whole η) : ℕ × ℕ := (x.slice.length + x.later.length, Held x.handle)

end Whole

/-- Whatever the handle does, the loop ends at the stream's end or with an error. -/
theorem wholeTurn_ended (process : η → Buffer → Flush → Status × η × Buffer) (x : Whole η) :
    Turn (fun _ => True) (fun e : Status × OutBuf => e.1 = .streamEnd ∨ e.1.isError = true)
      (wholeTurn process r x) := by
  unfold wholeTurn
  dsimp only
  cases hreserve : reserve (x.refill r).out r.outChunk with
  | error st =>
    obtain rfl := reserve_error hreserve
    exact .inr rfl
  | ok out =>
    dsimp only
    unfold Whole.judge
    dsimp only
    split_ifs with hend hbad hstuck
    · exact .inl rfl
    · refine .inr ?_
      generalize (process (x.refill r).handle (.ofParts (x.refill r).slice r.outChunk)
        ((x.refill r).mode r)).1 = st at hend hbad
      cases st <;> simp_all [Status.isError]
    · exact .inr rfl
    · trivial

/-- How a drive loop may end: at the stream's end, or with an error that is not its own. -/
def Concludes (st : Status) : Prop := st = .streamEnd ∨ st.isError = true ∧ st ≠ .errInternal

variable {g : Gauge η} {process : η → Buffer → Flush → Status × η × Buffer} {Kept : η → Prop}

/-- A run between two turns: what its handle has been told of the input to come is the last slice,
or nothing. -/
structure Whole.Running (Kept : η → Prop) (g : Gauge η) (x : Whole η) : Prop where
  kept : Kept x.handle
  sound : g.Sound x.handle
  told : (∀ n mode, g.Takes x.handle n mode) ∨
    x.later = [] ∧ g.Takes x.handle x.slice.length .finish

theorem Whole.Running.refill {x : Whole η} (h : x.Running Kept g) : (x.refill r).Running Kept g := by
  refine ⟨?_, ?_, ?_⟩
  · rw [Whole.refill_handle]
    exact h.kept
  · rw [Whole.refill_handle]
    exact h.sound
  · rw [Whole.refill_handle]
    rcases h.told with hopen | ⟨hlater, htold⟩
    · exact .inl hopen
    · refine .inr ?_
      unfold Whole.refill
      split_ifs with hslice
      · rw [hslice] at htold
        simpa [hlater] using htold
      · exact ⟨hlater, htold⟩

end Whole

end Zukomp
