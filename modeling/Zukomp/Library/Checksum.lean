import Mathlib.Tactic

/-! # Checksums

A checksum folds a step over the symbols of a text. Where a step can be undone and short words are
told apart by what they do to the register, a change to a few consecutive symbols always shows. The
register of a reflected polynomial division tells apart all the words that fit in it.
-/

namespace Zukomp.Library

/-! ## Damage that shows -/

section Folds

variable {σ α : Type*} {step : σ → α → σ} {Inv : σ → Prop} {n : ℕ} {s t : σ} {x y : List α}

/-- At most `n` consecutive symbols are others. -/
def Burst (n : ℕ) (x y : List α) : Prop :=
  ∃ a u v z, x = a ++ (u ++ z) ∧ y = a ++ (v ++ z) ∧ u.length = v.length ∧ u.length ≤ n ∧ u ≠ v

/-- A step that can be undone, and that tells apart the words of at most `n` symbols. -/
structure Detects (step : σ → α → σ) (Inv : σ → Prop) (n : ℕ) : Prop where
  keeps : ∀ {s} b, Inv s → Inv (step s b)
  undo : ∀ {s t} b, Inv s → Inv t → step s b = step t b → s = t
  apart : ∀ {s} {u v : List α}, Inv s → u.length = v.length → u.length ≤ n →
    u.foldl step s = v.foldl step s → u = v

theorem Detects.foldl_keeps (h : Detects step Inv n) (hs : Inv s) (x : List α) :
    Inv (x.foldl step s) := by
  induction x generalizing s with
  | nil => exact hs
  | cons b x ih => exact ih (h.keeps b hs)

theorem Detects.foldl_undo (h : Detects step Inv n) (hs : Inv s) (ht : Inv t) (x : List α)
    (heq : x.foldl step s = x.foldl step t) : s = t := by
  induction x generalizing s t with
  | nil => exact heq
  | cons b x ih => exact h.undo b hs ht (ih (h.keeps b hs) (h.keeps b ht) heq)

/-- The checksums of two texts that a burst apart are others. -/
theorem Detects.foldl_ne (h : Detects step Inv n) (hs : Inv s) (hb : Burst n x y) :
    x.foldl step s ≠ y.foldl step s := by
  obtain ⟨a, u, v, z, rfl, rfl, hlen, hn, hne⟩ := hb
  intro heq
  rw [List.foldl_append, List.foldl_append, List.foldl_append, List.foldl_append] at heq
  have ha := h.foldl_keeps hs a
  exact hne (h.apart ha hlen hn
    (h.foldl_undo (h.foldl_keeps ha u) (h.foldl_keeps ha v) z heq))

end Folds

/-! ## Registers of a division -/

section Register

variable {w k : ℕ} {p : BitVec w}

/-- One bit of the reflected division by the polynomial `p`. -/
def divideBit (p c : BitVec w) : BitVec w := if c.getLsbD 0 then (c >>> 1) ^^^ p else c >>> 1

def divide (p : BitVec w) : ℕ → BitVec w → BitVec w
  | 0, c => c
  | n + 1, c => divide p n (divideBit p c)

/-- The register takes in a symbol of `k` bits. -/
def takeIn (p c : BitVec w) (b : BitVec k) : BitVec w := divide p k (c ^^^ b.setWidth w)

theorem divideBit_xor (a b : BitVec w) :
    divideBit p (a ^^^ b) = divideBit p a ^^^ divideBit p b := by
  unfold divideBit
  rw [BitVec.getLsbD_xor, BitVec.ushiftRight_xor_distrib]
  apply BitVec.eq_of_getLsbD_eq
  intro i hi
  cases a.getLsbD 0 <;> cases b.getLsbD 0 <;> simp only [Bool.xor_false, Bool.xor_true,
    Bool.not_false, Bool.not_true, if_true, if_false, Bool.false_eq_true, BitVec.getLsbD_xor] <;>
    cases (a >>> 1).getLsbD i <;> cases (b >>> 1).getLsbD i <;> cases p.getLsbD i <;> rfl

theorem divide_xor (n : ℕ) (a b : BitVec w) :
    divide p n (a ^^^ b) = divide p n a ^^^ divide p n b := by
  induction n generalizing a b with
  | zero => rfl
  | succ n ih => rw [divide, divide, divide, divideBit_xor, ih]

/-- A polynomial with its highest bit set comes out where a bit is shifted out. -/
theorem divideBit_eq_zero (hp : p.getLsbD (w - 1) = true) {c : BitVec w}
    (h : divideBit p c = 0#w) : c = 0#w := by
  have hw : 0 < w := by
    rcases Nat.eq_zero_or_pos w with rfl | hw
    · simp at hp
    · exact hw
  unfold divideBit at h
  have hbit (i : ℕ) := congrArg (fun c => BitVec.getLsbD c i) h
  cases hlow : c.getLsbD 0 with
  | true =>
    have htop := hbit (w - 1)
    simp only [hlow, if_true, BitVec.getLsbD_xor, BitVec.getLsbD_ushiftRight, hp,
      BitVec.getLsbD_zero] at htop
    rw [BitVec.getLsbD_of_ge c _ (by omega)] at htop
    cases htop
  | false =>
    apply BitVec.eq_of_getLsbD_eq
    intro i hi
    rw [BitVec.getLsbD_zero]
    cases i with
    | zero => exact hlow
    | succ i =>
      have hi := hbit i
      simp only [hlow, Bool.false_eq_true, if_false, BitVec.getLsbD_ushiftRight,
        BitVec.getLsbD_zero] at hi
      rw [Nat.add_comm]
      exact hi

theorem divide_injective (hp : p.getLsbD (w - 1) = true) (n : ℕ) {a b : BitVec w}
    (h : divide p n a = divide p n b) : a = b := by
  induction n generalizing a b with
  | zero => exact h
  | succ n ih =>
    have hstep : divideBit p (a ^^^ b) = 0#w := by
      rw [divideBit_xor, ih h, BitVec.xor_self]
    exact BitVec.xor_eq_zero_iff.mp (divideBit_eq_zero hp hstep)

theorem divide_shift (n : ℕ) {c : BitVec w} (h : ∀ i, w ≤ i + n → c.getLsbD i = false) :
    divide p n (c <<< n) = c := by
  induction n with
  | zero => rw [BitVec.shiftLeft_zero]; rfl
  | succ n ih =>
    have hstep : divideBit p (c <<< (n + 1)) = c <<< n := by
      have hlow : (c <<< (n + 1)).getLsbD 0 = false := by simp
      rw [divideBit, hlow, if_neg Bool.false_ne_true]
      apply BitVec.eq_of_getLsbD_eq
      intro i hi
      rw [BitVec.getLsbD_ushiftRight, BitVec.getLsbD_shiftLeft, BitVec.getLsbD_shiftLeft,
        show 1 + i - (n + 1) = i - n by omega]
      by_cases hn : i < n
      · simp [hn, show 1 + i < n + 1 by omega]
      by_cases htop : 1 + i < w
      · simp [hn, hi, htop, show ¬ 1 + i < n + 1 by omega]
      · simp [h (i - n) (by omega)]
    rw [divide, hstep]
    exact ih fun i hi => h i (by omega)

def word (w : ℕ) : List (BitVec k) → BitVec w
  | [] => 0#w
  | b :: u => b.setWidth w ^^^ (word w u <<< k)

theorem word_high (u : List (BitVec k)) {i : ℕ} (hi : k * u.length ≤ i) :
    (word w u).getLsbD i = false := by
  induction u generalizing i with
  | nil => exact BitVec.getLsbD_zero
  | cons b u ih =>
    rw [List.length_cons, Nat.mul_succ] at hi
    rw [word, BitVec.getLsbD_xor, BitVec.getLsbD_setWidth, BitVec.getLsbD_shiftLeft,
      BitVec.getLsbD_of_ge b i (by omega), ih (by omega)]
    simp

/-- Registers that the words bring together were apart by the words. -/
theorem foldl_takeIn (hp : p.getLsbD (w - 1) = true) {u v : List (BitVec k)}
    (hlen : u.length = v.length) (hw : k * u.length ≤ w) {s t : BitVec w}
    (h : u.foldl (takeIn p) s = v.foldl (takeIn p) t) : s ^^^ t = word w u ^^^ word w v := by
  induction u generalizing v s t with
  | nil =>
    obtain rfl := List.length_eq_zero_iff.mp hlen.symm
    obtain rfl : s = t := h
    rw [BitVec.xor_self, BitVec.xor_self]
  | cons b u ih =>
    cases v with
    | nil => cases hlen
    | cons c v =>
      have hlen' : u.length = v.length := Nat.succ.inj hlen
      rw [List.length_cons, Nat.mul_succ] at hw
      have hnext := ih hlen' (by omega) h
      have hroom : ∀ i, w ≤ i + k → (word w u ^^^ word w v).getLsbD i = false := by
        intro i hi
        rw [BitVec.getLsbD_xor, word_high u (by omega), word_high v (by rw [← hlen']; omega)]
        rfl
      rw [takeIn, takeIn, ← divide_xor, ← divide_shift (p := p) k hroom] at hnext
      have hdiff := divide_injective hp k hnext
      rw [BitVec.shiftLeft_xor_distrib] at hdiff
      rw [word, word]
      calc s ^^^ t = (s ^^^ b.setWidth w ^^^ (t ^^^ c.setWidth w)) ^^^
            (b.setWidth w ^^^ c.setWidth w) := by
            apply BitVec.eq_of_getLsbD_eq
            intro i _
            simp only [BitVec.getLsbD_xor]
            cases s.getLsbD i <;> cases t.getLsbD i <;> cases (b.setWidth w).getLsbD i <;>
              cases (c.setWidth w).getLsbD i <;> rfl
        _ = (word w u <<< k ^^^ word w v <<< k) ^^^ (b.setWidth w ^^^ c.setWidth w) := by
            rw [hdiff]
        _ = b.setWidth w ^^^ word w u <<< k ^^^ (c.setWidth w ^^^ word w v <<< k) := by
            ac_rfl

theorem word_injective {u v : List (BitVec k)} (hlen : u.length = v.length)
    (hw : k * u.length ≤ w) (h : word w u = word w v) : u = v := by
  induction u generalizing v with
  | nil => exact (List.length_eq_zero_iff.mp hlen.symm).symm
  | cons b u ih =>
    cases v with
    | nil => cases hlen
    | cons c v =>
      have hlen' : u.length = v.length := Nat.succ.inj hlen
      rw [List.length_cons, Nat.mul_succ] at hw
      have hbit (i : ℕ) := congrArg (fun x => BitVec.getLsbD x i) h
      have hhead : b = c := by
        apply BitVec.eq_of_getLsbD_eq
        intro i hi
        have hi' := hbit i
        simpa [word, hi, show i < w by omega] using hi'
      have htail : word w u = word w v := by
        apply BitVec.eq_of_getLsbD_eq
        intro i hi
        by_cases hroom : i + k < w
        · have hi' := hbit (i + k)
          simpa [word, hi, hroom, BitVec.getLsbD_of_ge b (i + k) (by omega),
            BitVec.getLsbD_of_ge c (i + k) (by omega)] using hi'
        · rw [word_high u (by omega), word_high v (by rw [← hlen']; omega)]
      rw [hhead, ih hlen' (by omega) htail]

theorem takeIn_detects (hp : p.getLsbD (w - 1) = true) {n : ℕ} (hn : k * n ≤ w) :
    Detects (takeIn p : BitVec w → BitVec k → BitVec w) (fun _ => True) n where
  keeps _ _ := trivial
  undo _ _ _ h := (BitVec.xor_left_inj _).mp (divide_injective hp k h)
  apart {s u v} _ hlen hle h := by
    have hfits : k * u.length ≤ w := (Nat.mul_le_mul_left k hle).trans hn
    have hwords := foldl_takeIn hp hlen hfits h
    rw [BitVec.xor_self] at hwords
    exact word_injective hlen hfits (BitVec.xor_eq_zero_iff.mp hwords.symm)

end Register

end Zukomp.Library
