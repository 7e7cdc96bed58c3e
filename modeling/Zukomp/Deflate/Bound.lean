import Zukomp.Core.Bound
import Zukomp.Core.Sizes
import Zukomp.Deflate.Turns

/-! # The bound of the DEFLATE family

Incompressible input goes out in stored blocks, whose overhead is far below a 64th, and the
wrapper's bytes come on top.
-/

namespace Zukomp

open Library

variable {E : MzStream}

/-- `zu_int_deflate_bound`, every sum checked. -/
def deflateBound (wrapper : ℕ) : BoundEntry := fun _ n =>
  match sizeAdd n (n / 64) with
  | .error st => .error st
  | .ok total => sizeAdd total (64 + wrapper)

def deflateRawBound : BoundEntry := deflateBound 0
def zlibBound : BoundEntry := deflateBound 6
def gzipBound : BoundEntry := deflateBound (gzipHeaderLen + 8)

/-- Five bytes for each stored block. -/
def storedWorst (n : ℕ) : ℕ := n + 5 * (n / (31 * 1024) + 1)

theorem storedWorst_mono {m n : ℕ} (h : m ≤ n) : storedWorst m ≤ storedWorst n := by
  have hdiv : m / (31 * 1024) ≤ n / (31 * 1024) := Nat.div_le_div_right h
  unfold storedWorst
  omega

theorem deflateBound_ok {wrapper n b : ℕ} {level : ℤ} (h : deflateBound wrapper level n = .ok b) :
    b = n + n / 64 + (64 + wrapper) := by
  have hadd {a b c : ℕ} (h : sizeAdd a b = .ok c) : c = a + b := by
    unfold sizeAdd at h
    split_ifs at h
    exact (Except.ok.inj h).symm
  unfold deflateBound at h
  cases htotal : sizeAdd n (n / 64) with
  | error st => rw [htotal] at h; cases h
  | ok total =>
    rw [htotal] at h
    rw [hadd h, hadd htotal]

/-- miniz's compressor under `MZ_FINISH`, `p` bytes into its input and `q` into its output: it
stores what it cannot compress, 31 KiB or more to a block. -/
structure Stores (E : MzStream) where
  At : E.State → ℕ → ℕ → Prop
  init : ∀ level, (E.init level).1 = .ok → At (E.init level).2 0 0
  process : ∀ {z p q} input room, At z p q → At (E.process z input room .finish).state
    (p + (E.process z input room .finish).used) (q + (E.process z input room .finish).out.length)
  le : ∀ {z p q}, At z p q → q ≤ storedWorst p

theorem afterEngine_lens (s : DeflateState E) (w : Window) (r : MzStep E.State) :
    (afterEngine s w r).hdrLen = s.hdrLen ∧ (afterEngine s w r).tailLen = s.tailLen := by
  unfold afterEngine
  dsimp only
  split_ifs <;> exact ⟨rfl, rfl⟩

theorem fromMz_error {st : MzStatus} (hok : st ≠ .ok) (hbuf : st ≠ .bufError)
    (hend : st ≠ .streamEnd) :
    (fromMz st).isError = true ∧ fromMz st ≠ .errOutputLimit ∧ fromMz st ≠ .needOutput := by
  cases st <;> simp [fromMz, Status.isError] at *

/-- Where an encoder stands under `ZU_FINISH`, `p` bytes into its payload and `q` into its
output. -/
def DeflateStored (C : Stores E) (s : DeflateState E) (p q : ℕ) : Prop :=
  s.encoder = true ∧ match s.state with
    | .header => p = 0 ∧ q = s.hdrPos ∧ s.hdrPos ≤ s.hdrLen ∧ C.At s.mz 0 0
    | .body => ∃ q', C.At s.mz p q' ∧ q = s.hdrLen + q'
    | .trailer => ∃ q', q' ≤ storedWorst p ∧ q = s.hdrLen + q' + s.tailPos ∧ s.tailPos ≤ s.tailLen
    | .memberEnd => False
    | .done => True

/-- Within a call that found `w₀`, `p` bytes into the payload and `q` into the output. -/
structure DeflateFitting (C : Stores E) (wrapper : ℕ) (w₀ : Window) (p q : ℕ)
    (x : DeflateState E × Window) : Prop where
  wraps : x.1.hdrLen + x.1.tailLen = wrapper
  moved : ∃ u o, w₀.Moved u o x.2 ∧ DeflateStored C x.1 (p + u) (q + o.length)

theorem deflateStep_fitsRoom (C : Stores E) {wrapper n cap : ℕ}
    (hcap : n + n / 64 + (64 + wrapper) ≤ cap) {w₀ : Window} {p q : ℕ}
    (hp : p + w₀.input.length = n) (hq : q + w₀.room = cap) {x : DeflateState E × Window}
    (hx : DeflateFitting C wrapper w₀ p q x) :
    Turn (DeflateFitting C wrapper w₀ p q)
      (FitsRoom (fun s p q => s.hdrLen + s.tailLen = wrapper ∧ DeflateStored C s p q) w₀ p q)
      (deflateStep .finish x) := by
  obtain ⟨s, w⟩ := x
  obtain ⟨hwraps, u, o, hm, henc, hat⟩ := hx
  dsimp only at hwraps hm henc hat
  have hroom : w.room = cap - (q + o.length) := by
    have := hm.write_le
    rw [hm.eq]
    change w₀.room - o.length = _
    omega
  have hp' : p + u ≤ n := by
    have := hm.read_le
    omega
  have hworst {q' : ℕ} (h : q' ≤ storedWorst (p + u)) : q' < n + n / 64 + 64 := by
    have hle := storedWorst_mono hp'
    unfold storedWorst at h hle
    omega
  have hstay {t : DeflateState E} {v : Window} (ht : t.hdrLen + t.tailLen = wrapper) {n : ℕ}
      {b : List UInt8} (hv : w.Moved n b v)
      (hstored : DeflateStored C t (p + (u + n)) (q + (o ++ b).length)) :
      DeflateFitting C wrapper w₀ p q (t, v) := ⟨ht, _, _, hm.trans hv, hstored⟩
  unfold deflateStep
  dsimp only
  cases hs : s.state with
  | done =>
    refine ⟨⟨u, o, hm, fun _ _ => ⟨hwraps, henc, ?_⟩⟩, by simp, by simp⟩
    rw [hs]
    trivial
  | header =>
    rw [hs] at hat
    obtain ⟨hpu, hqo, hpos, hat⟩ := hat
    dsimp only
    unfold headerStep
    rw [if_pos henc]
    by_cases hmore : s.hdrPos < s.hdrLen
    · rw [if_pos hmore, if_neg (by omega)]
      refine hstay hwraps (.put (by rw [List.length_singleton]; omega)) ⟨henc, ?_⟩
      rw [hs]
      refine ⟨by omega, ?_, hmore, hat⟩
      rw [List.length_append, List.length_singleton]
      change _ = s.hdrPos + 1
      omega
    · rw [if_neg hmore]
      refine hstay hwraps (.refl w) ⟨henc, 0, ?_, ?_⟩
      · rwa [Nat.add_zero, hpu]
      · rw [List.append_nil]
        change _ = s.hdrLen + 0
        omega
  | body =>
    rw [hs] at hat
    obtain ⟨q', hat, hqo⟩ := hat
    have hlt := hworst (C.le hat)
    dsimp only
    unfold bodyStep
    rw [if_neg (fun h => by omega)]
    dsimp only
    have hmoved := engineCall_moved s w .finish
    have hflush : engineFlush s .finish = .finish := if_neg (by simp [henc])
    have hnext : C.At (engineCall s w .finish).state (p + u + (engineCall s w .finish).used)
        (q' + (engineCall s w .finish).out.length) := by
      unfold engineCall
      rw [hflush]
      exact C.process _ _ hat
    generalize engineCall s w .finish = r at hmoved hnext
    have hpr : p + u + r.used = p + (u + r.used) := Nat.add_assoc _ _ _
    rw [hpr] at hnext
    have hqr : q + (o ++ r.out).length = s.hdrLen + (q' + r.out.length) := by
      rw [List.length_append]
      omega
    obtain ⟨hhdr, htail⟩ := afterEngine_lens s w r
    have hwraps' : (afterEngine s w r).hdrLen + (afterEngine s w r).tailLen = wrapper := by
      rw [hhdr, htail, hwraps]
    have henc' : (afterEngine s w r).encoder = true := by rw [afterEngine_encoder, henc]
    have hbody : DeflateStored C (afterEngine s w r) (p + (u + r.used))
        (q + (o ++ r.out).length) := by
      refine ⟨henc', ?_⟩
      rw [afterEngine_state, hs]
      exact ⟨_, by rwa [afterEngine_mz], by rw [hhdr, hqr]⟩
    by_cases hend : r.status = .streamEnd
    · rw [if_pos hend]
      by_cases hwrap : (afterEngine s w r).wrap = .none
      · rw [if_neg (not_not.mpr hwrap)]
        exact ⟨⟨_, _, hm.trans hmoved, fun _ _ => ⟨hwraps', henc', trivial⟩⟩, by simp, by simp⟩
      · rw [if_pos hwrap]
        exact hstay hwraps' hmoved ⟨henc', _, C.le hnext, by rw [hqr, ← hhdr]; rfl, Nat.zero_le _⟩
    rw [if_neg hend]
    by_cases hbad : r.status ≠ .ok ∧ r.status ≠ .bufError
    · rw [if_pos hbad]
      obtain ⟨herr, hlimit, hneed⟩ := fromMz_error hbad.1 hbad.2 hend
      exact ⟨⟨_, _, hm.trans hmoved, fun h _ => absurd herr (by simp [h])⟩, hlimit,
        fun h => absurd h hneed⟩
    rw [if_neg hbad]
    by_cases hstill : r.used = 0 ∧ r.out = []
    · rw [if_pos hstill]
      refine ⟨⟨_, _, hm.trans hmoved, fun _ _ => ⟨hwraps', hbody⟩⟩, ?_, fun _ => ?_⟩
      · unfold stalled
        split_ifs <;> simp
      · rw [hstill.1, hstill.2]
        change w.room - 0 ≠ 0
        omega
    · rw [if_neg hstill]
      exact hstay hwraps' hmoved hbody
  | memberEnd =>
    rw [hs] at hat
    exact hat.elim
  | trailer =>
    rw [hs] at hat
    obtain ⟨q', hle, hqo, hpos⟩ := hat
    have hlt := hworst hle
    dsimp only
    unfold trailerStep
    rw [if_pos henc]
    by_cases hmore : s.tailPos < s.tailLen
    · rw [if_pos hmore, if_neg (by omega)]
      refine hstay hwraps (.put (by rw [List.length_singleton]; omega)) ⟨henc, ?_⟩
      rw [hs]
      refine ⟨q', hle, ?_, hmore⟩
      rw [List.length_append, List.length_singleton]
      change _ = s.hdrLen + q' + (s.tailPos + 1)
      omega
    · rw [if_neg hmore]
      exact ⟨⟨u, o, hm, fun _ _ => ⟨hwraps, henc, trivial⟩⟩, by simp, by simp⟩

theorem deflateProcess_fitsRoom (C : Stores E) {wrapper n cap : ℕ}
    (hcap : n + n / 64 + (64 + wrapper) ≤ cap) (s : DeflateState E) (w : Window) {p q : ℕ}
    (hwraps : s.hdrLen + s.tailLen = wrapper) (hat : DeflateStored C s p q)
    (hp : p + w.input.length = n) (hq : q + w.room = cap) :
    FitsRoom (fun s p q => s.hdrLen + s.tailLen = wrapper ∧ DeflateStored C s p q) w p q
      (deflateProcess s w .finish) := by
  refine runLoop_keeps (DeflateFitting C wrapper w p q) _
    (fun x hx => deflateStep_fitsRoom C hcap hp hq hx) (fun x hx => ?_)
    ⟨hwraps, 0, [], .refl w, hat⟩ _
  obtain ⟨hwraps, u, o, hm, hstored⟩ := hx
  exact ⟨⟨u, o, hm, fun _ _ => ⟨hwraps, hstored⟩⟩, by simp, by simp⟩

theorem deflateNew_stored (C : Stores E) {wrap : WrapKind} {level : ℤ} {flags : UInt32}
    {s : DeflateState E} (h : deflateNew E wrap true level flags = .ok s) :
    s.hdrLen + s.tailLen = hdrLength wrap + tailLength wrap ∧ DeflateStored C s 0 0 := by
  unfold deflateNew at h
  dsimp only at h
  have hinit := C.init (if level = levelDefault then mzDefaultLevel else level)
  generalize E.init (if level = levelDefault then mzDefaultLevel else level) = r at h hinit
  obtain ⟨st, mz⟩ := r
  cases st <;> cases h
  refine ⟨rfl, rfl, ?_⟩
  cases wrap with
  | none => exact ⟨0, hinit rfl, rfl⟩
  | zlib => exact ⟨rfl, rfl, Nat.zero_le _, hinit rfl⟩
  | gzip => exact ⟨rfl, rfl, Nat.zero_le _, hinit rfl⟩

end Zukomp
