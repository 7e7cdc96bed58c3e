import Zukomp.Block.Expected
import Zukomp.Frames.Delivery

/-! # A block of a size that nobody told, under an output limit

A limit that admits the text changes nothing: the search finds the text below it too.
-/

namespace Zukomp

open Library

variable {Z : Lz4} {b x : List UInt8} {s : Lz4bState} {w : Window} {p q : ℕ} {last : Bool}

/-- What the options must allow: no expected size, and no limit below the text. -/
structure Lz4bAdmits (x : List UInt8) (s : Lz4bState) : Prop where
  decoder : s.encoder = false
  unknown : s.hasExpected = false
  within : s.maxOutput = 0 ∨ x.length ≤ s.maxOutput.toNat

theorem Lz4bAdmits.search (L : Lz4Blocks Z) (h : Lz4bAdmits x s) (hblock : L.Block b x)
    (hx : x.length ≤ intMax) (hinput : s.input = b) (hb : b.length ≤ lz4MaxInputSize) :
    lz4bSearch Z s = .ok x := by
  exact lz4bSearch_block L hblock (hb.trans (by norm_num [lz4MaxInputSize, intMax])) hx hinput
    h.within

/-- A decoder that has read `p` bytes of the block and written `q` of the text. -/
inductive Lz4bWithin (b x : List UInt8) (s : Lz4bState) : Bool → ℕ → ℕ → Prop
  | gathering {p : ℕ} (admits : Lz4bAdmits x s) (done : s.done = false)
      (input : s.input = b.take p) (p_le : p ≤ b.length) (p_max : p ≤ lz4MaxInputSize) :
      Lz4bWithin b x s false p 0
  | draining {last : Bool} {q : ℕ} (done : s.done = true) (stage : s.stage = x.drop q)
      (q_le : q ≤ x.length) : Lz4bWithin b x s last b.length q

theorem lz4bFinish_searched (hdec : s.encoder = false) (hdone : s.done = false)
    (hexp : s.hasExpected = false) (hheld : s.input.length ≤ lz4MaxInputSize)
    (hword : s.input.length + w.input.length < wordSize) (hne : s.input ++ w.input ≠ []) :
    lz4bDecoderProcess Z s w .finish =
      if lz4MaxInputSize < s.input.length + w.input.length then (.errInvalidData, s, w)
      else match lz4bSearch Z { s with input := s.input ++ w.input } with
        | .error st => (st, { s with input := s.input ++ w.input }, w.take w.input.length)
        | .ok text => lz4bDrain ({ s with input := s.input ++ w.input }.produce text)
            (w.take w.input.length) := by
  rw [lz4bDecoderProcess, if_neg (by simp [hdone]), if_neg (by simp), if_neg (by simp [hexp])]
  by_cases hlong : lz4MaxInputSize < s.input.length + w.input.length
  · rw [if_pos hlong, lz4bGather_fails hdec hheld hlong hword]
  · rw [if_neg hlong, lz4bGather_fits (Nat.not_lt.mp hlong)]
    exact if_neg hne

/-- A call over a valid block answers for the position it is at. -/
theorem lz4bDecoder_within (L : Lz4Blocks Z) (hblock : L.Block b x) (hx : x.length ≤ intMax)
    (hb : b.length < wordSize) (h : Lz4bWithin b x s last p q) {mode : Flush}
    (hsh : Coding.Shows ⟨b, x⟩ p w.input (mode = .finish)) :
    Answer ⟨b, x⟩ (Lz4bWithin b x) (fun _ => False) (lz4bFails s w) p q w (mode == .finish)
        (lz4bDecoderProcess Z s w mode) ∧
      (lz4bFails s w → (lz4bDecoderProcess Z s w mode).1 = .errInvalidData) := by
  cases h with
  | draining done stage q_le =>
    unfold lz4bDecoderProcess
    rw [if_pos done]
    refine ⟨?_, fun hf => by simp [lz4bFails, done] at hf⟩
    exact lz4bDrain_answers stage q_le fun _ _ hd hs hq => .draining (hd.trans done) hs hq
  | gathering admits done input p_le p_max =>
    obtain ⟨hgather, hle, hend⟩ := hsh.gathered p_le
    have hinput : s.input.length = p := by
      rw [input, List.length_take]
      exact Nat.min_eq_left p_le
    have hword : s.input.length + w.input.length < wordSize := by
      simp only at hle
      omega
    have hfail : lz4MaxInputSize < s.input.length + w.input.length ↔ lz4bFails s w :=
      ⟨fun h => ⟨done, h⟩, fun h => h.2⟩
    by_cases hmode : mode = .finish
    · subst hmode
      have hall : s.input ++ w.input = b := by
        rw [input, hgather, hend rfl, List.take_length]
      have hlen := congrArg List.length hall
      rw [List.length_append] at hlen
      rw [lz4bFinish_searched admits.decoder done admits.unknown (by omega) hword
        (hall ▸ L.ne_nil hblock)]
      split_ifs with hlong
      · exact ⟨.failed (hfail.mp hlong), fun _ => rfl⟩
      · refine ⟨?_, fun hf => absurd (hfail.mpr hf) hlong⟩
        have hadmits : Lz4bAdmits x { s with input := s.input ++ w.input } :=
          ⟨admits.decoder, admits.unknown, admits.within⟩
        rw [hadmits.search L hblock hx hall (by omega)]
        refine Answer.after (.take le_rfl) .nil ?_
        rw [show p + w.input.length = b.length by omega]
        exact lz4bDrain_answers rfl (Nat.zero_le _) fun _ _ hd hs hq => .draining hd hs hq
    · rw [lz4bHold_gathers admits.decoder done (by omega) hword hmode, beq_eq_false_iff_ne.mpr hmode]
      split_ifs with hlong
      · exact ⟨.failed (hfail.mp hlong), fun _ => rfl⟩
      · refine ⟨.hungry (.take le_rfl) .nil ?_ rfl (by simp) False.elim,
          fun hf => absurd (hfail.mpr hf) hlong⟩
        exact .gathering ⟨admits.decoder, admits.unknown, admits.within⟩ done
          (by rw [input, hgather]) hle (by omega)

theorem Lz4bWithin.bounds (h : Lz4bWithin b x s last p q) : p ≤ b.length ∧ q ≤ x.length := by
  cases h with
  | gathering _ _ _ p_le _ => exact ⟨p_le, Nat.zero_le _⟩
  | draining _ _ q_le => exact ⟨le_rfl, q_le⟩

theorem lz4BlockWithin_starves {p : ℕ} (h : False) : p < (⟨b, x⟩ : Coding UInt8).code.length := h.elim

/-- The decoder over a valid block under such options, as a decoder of that stream. -/
def lz4BlockWithin (L : Lz4Blocks Z) (hblock : L.Block b x) (hx : x.length ≤ intMax)
    (hb : b.length < wordSize) : StreamDecoder (lz4BlockCodec Z) ⟨b, x⟩ where
  process := lz4bDecoderProcess Z
  lifted := lz4BlockCodec_decodes Z
  At := Lz4bWithin b x
  Stall _ := False
  Fails s w _ := lz4bFails s w
  Idles := True
  answers h _ _ hsh := (lz4bDecoder_within L hblock hx hb h hsh).1.keepsPlace
  fails h _ _ hsh hf := (lz4bDecoder_within L hblock hx hb h hsh).2 hf
  bounds := Lz4bWithin.bounds
  stall_lt := lz4BlockWithin_starves

theorem lz4BlockWithin_standing (L : Lz4Blocks Z) (hblock : L.Block b x) (hx : x.length ≤ intMax)
    (hb : b.length < wordSize) {lookup : CodecId → Option CodecVtable} {opts : DecoderOpts}
    {d : Decoder (lz4BlockCodec Z)} (hnew : decoderNew lookup opts = .ok ⟨lz4BlockCodec Z, d⟩)
    (hratio : d.opts.maxRatio = 0) (hexp : d.opts.hasExpected = false)
    (hmax : d.opts.maxOutput = 0 ∨ x.length ≤ d.opts.maxOutput.toNat) :
    (lz4BlockWithin L hblock hx hb).Standing d false 0 0 := by
  obtain ⟨-, hstate⟩ := decoderNew_ok hnew
  refine StreamDecoder.standing_new _ hnew hratio ?_
  rw [← Except.ok.inj hstate]
  exact .gathering ⟨rfl, hexp, hmax⟩ rfl rfl (Nat.zero_le _) (Nat.zero_le _)

end Zukomp
