import Zukomp.Frames.Lz4f
import Zukomp.Frames.Zstd

/-! # Classifying what follows a frame

However the bytes after a frame are split, `zu_int_frames_between` decides the same from
them: another frame, trailing bytes, or a clean end.
-/

namespace Zukomp

variable {kind : FramesKind} {σ : Type}

/-- The little-endian value of some bytes. -/
def leValue (bytes : List UInt8) : ℕ := Nat.ofDigits 256 (bytes.map UInt8.toNat)

/-- The magic number of a format. -/
def FramesKind.magicNumber : FramesKind → ℕ
  | .zstd => 0xFD2FB528
  | .lz4 => 0x184D2204

/-- The first four bytes are the format's own magic or a skippable frame's. -/
def BeginsFrame (kind : FramesKind) (tail : List UInt8) : Prop :=
  4 ≤ tail.length ∧ (leValue (tail.take 4) = kind.magicNumber ∨
    0x184D2A50 ≤ leValue (tail.take 4) ∧ leValue (tail.take 4) ≤ 0x184D2A5F)

instance (kind : FramesKind) (tail : List UInt8) : Decidable (BeginsFrame kind tail) := by
  unfold BeginsFrame
  infer_instance

/-! ## Four bytes of a magic -/

theorem and_F0_iff (b : UInt8) : b &&& 0xF0 = 0x50 ↔ 0x50 ≤ b.toNat ∧ b.toNat ≤ 0x5F := by
  have h : ∀ n : Fin 256, n.val &&& 0xF0 = 0x50 ↔ 0x50 ≤ n.val ∧ n.val ≤ 0x5F := by decide +kernel
  rw [← UInt8.toNat_inj, UInt8.toNat_and]
  exact h ⟨b.toNat, b.toNat_lt⟩

theorem eq_iff_toNat (b : UInt8) (n : ℕ) (hn : n < 256) : b = UInt8.ofNat n ↔ b.toNat = n := by
  rw [← UInt8.toNat_inj, UInt8.toNat_ofNat', Nat.mod_eq_of_lt hn]

/-- Four bytes begin a magic when they are one. -/
theorem framesIsPrefix_iff {p : List UInt8} (hp : p.length = 4) :
    framesIsPrefix kind p = true ↔ leValue p = kind.magicNumber ∨
      0x184D2A50 ≤ leValue p ∧ leValue p ≤ 0x184D2A5F := by
  match p, hp with
  | [a, b, c, d], _ =>
    have ha := a.toNat_lt
    have hb := b.toNat_lt
    have hc := c.toNat_lt
    have hd := d.toNat_lt
    have hskip := and_F0_iff a
    have hval : leValue [a, b, c, d] =
        a.toNat + 256 * (b.toNat + 256 * (c.toNat + 256 * d.toNat)) := by
      simp [leValue, Nat.ofDigits]
    rw [hval]
    have htail : (b = 0x2A ∧ c = 0x4D ∧ d = 0x18) ↔
        b.toNat = 0x2A ∧ c.toNat = 0x4D ∧ d.toNat = 0x18 := by
      rw [← eq_iff_toNat b 0x2A (by norm_num), ← eq_iff_toNat c 0x4D (by norm_num),
        ← eq_iff_toNat d 0x18 (by norm_num)]
      rfl
    cases kind with
    | zstd =>
      have hown : (a = 0x28 ∧ b = 0xB5 ∧ c = 0x2F ∧ d = 0xFD) ↔
          a.toNat = 0x28 ∧ b.toNat = 0xB5 ∧ c.toNat = 0x2F ∧ d.toNat = 0xFD := by
        rw [← eq_iff_toNat a 0x28 (by norm_num), ← eq_iff_toNat b 0xB5 (by norm_num),
          ← eq_iff_toNat c 0x2F (by norm_num), ← eq_iff_toNat d 0xFD (by norm_num)]
        rfl
      simp only [framesIsPrefix, FramesKind.magic, skipTail, List.isPrefixOf_cons_cons,
        List.isPrefixOf_nil_left, Bool.and_true, Bool.or_eq_true, Bool.and_eq_true, beq_iff_eq,
        FramesKind.magicNumber]
      rw [hown, htail, hskip]
      omega
    | lz4 =>
      have hown : (a = 0x04 ∧ b = 0x22 ∧ c = 0x4D ∧ d = 0x18) ↔
          a.toNat = 0x04 ∧ b.toNat = 0x22 ∧ c.toNat = 0x4D ∧ d.toNat = 0x18 := by
        rw [← eq_iff_toNat a 0x04 (by norm_num), ← eq_iff_toNat b 0x22 (by norm_num),
          ← eq_iff_toNat c 0x4D (by norm_num), ← eq_iff_toNat d 0x18 (by norm_num)]
        rfl
      simp only [framesIsPrefix, FramesKind.magic, skipTail, List.isPrefixOf_cons_cons,
        List.isPrefixOf_nil_left, Bool.and_true, Bool.or_eq_true, Bool.and_eq_true, beq_iff_eq,
        FramesKind.magicNumber]
      rw [hown, htail, hskip]
      omega

theorem beginsFrame_iff {tail : List UInt8} :
    BeginsFrame kind tail ↔ 4 ≤ tail.length ∧ framesIsPrefix kind (tail.take 4) = true := by
  refine and_congr_right fun h => (framesIsPrefix_iff ?_).symm
  rw [List.length_take]
  omega

/-! ## A caller between frames -/

/-- How a caller that offers the bytes after a frame, buffer by buffer, is answered: what is
left of the buffer, and the buffers never offered. -/
structure BetweenEnd (σ : Type) where
  status : Status
  frames : Frames
  state : σ
  consumed : ℕ
  unread : List UInt8
  later : List UInt8

/-- Call `zu_int_frames_between` until it answers other than `ZU_NEED_INPUT`, with the rest of
the buffer and the next one each time; the last goes with `ZU_FINISH`. -/
def betweenRun (feed : σ → List UInt8 → Status × σ) (f : Frames) (z : σ) (consumed : ℕ)
    (rest : List UInt8) : List (List UInt8 × Flush) → List UInt8 → BetweenEnd σ
  | [], last =>
    match framesBetween feed f z ⟨rest ++ last, 0, []⟩ .finish with
    | (st, f, z, w) =>
      ⟨st, f, z, consumed + ((rest ++ last).length - w.input.length), w.input, []⟩
  | (chunk, mode) :: early, last =>
    match framesBetween feed f z ⟨rest ++ chunk, 0, []⟩ mode with
    | (.needInput, f, z, w) =>
      betweenRun feed f z (consumed + ((rest ++ chunk).length - w.input.length)) w.input early last
    | (st, f, z, w) =>
      ⟨st, f, z, consumed + ((rest ++ chunk).length - w.input.length), w.input,
        (early.map Prod.fst).flatten ++ last⟩

/-- The buffers as one. -/
def betweenTail (early : List (List UInt8 × Flush)) (last : List UInt8) : List UInt8 :=
  (early.map Prod.fst).flatten ++ last

/-- The buffer that ended the frame, from there on. -/
def firstBuffer : List (List UInt8 × Flush) → List UInt8 → List UInt8
  | [], last => last
  | (chunk, _) :: _, _ => chunk

/-- What follows a frame. -/
inductive FrameTail where
  | another | trailing | clean
  deriving DecidableEq

def tailClass (kind : FramesKind) (tail : List UInt8) : FrameTail :=
  if BeginsFrame kind tail then .another else if tail = [] then .clean else .trailing

namespace BetweenEnd

/-- What the caller is told: bytes left in the buffer are trailing, and so are held bytes that
were written off. -/
def classification (r : BetweenEnd σ) : FrameTail :=
  if r.frames.state ≠ .done then .another
  else if r.consumed = 0 ∧ r.unread = [] then .clean else .trailing

/-- The status after the driver's trailing policy. -/
def policyStatus (r : BetweenEnd σ) : Status :=
  if r.status = .streamEnd ∧ r.unread ≠ [] ∧ r.frames.flags &&& decRejectTrailing ≠ 0 then
    .errTrailing
  else r.status

/-- The classification of `tail`, whatever the buffers: where another frame begins the
library is handed its magic or is left to read it, and no byte is lost. -/
structure Classified (feed : σ → List UInt8 → Status × σ) (kind : FramesKind) (flags : UInt32)
    (z : σ) (tail : List UInt8) (r : BetweenEnd σ) : Prop where
  class_eq : r.classification = tailClass kind tail
  rest : r.unread ++ r.later = tail.drop r.consumed
  another : BeginsFrame kind tail →
    r.consumed = 0 ∧ r.status = .ok ∧ r.state = z ∨
      r.consumed = 4 ∧ (r.status, r.state) = feed z (tail.take 4)
  body : BeginsFrame kind tail → r.status = .ok → r.frames.state = .body
  untouched : ¬ BeginsFrame kind tail → r.state = z
  consumed_le : ¬ BeginsFrame kind tail → r.consumed ≤ 3
  policy : ¬ BeginsFrame kind tail → r.policyStatus =
    if tail ≠ [] ∧ flags &&& decRejectTrailing ≠ 0 then .errTrailing else .streamEnd

end BetweenEnd

/-- Before the tail is decided: up to three bytes that begin a magic are held. -/
structure Undecided (kind : FramesKind) (flags : UInt32) (f : Frames) : Prop where
  state : f.state = .between
  kind_eq : f.kind = kind
  flags_eq : f.flags = flags
  concat : flags &&& decConcatMembers ≠ 0
  short : f.held.length < 4
  held : framesIsPrefix kind f.held = true

theorem extendHeld_disproved {held input : List UInt8} (hheld : framesIsPrefix kind held = true)
    (h : framesIsPrefix kind (held ++ input.take (4 - held.length)) = false) :
    ∃ held' n, extendHeld kind held input = (false, held', n) ∧ n < input.length ∧
      held.length + n < 4 := by
  induction input generalizing held with
  | nil => simp [hheld] at h
  | cons b rest ih =>
    have hlt : held.length < 4 := by
      by_contra hge
      rw [show 4 - held.length = 0 by omega] at h
      simp [hheld] at h
    obtain ⟨k, hk⟩ : ∃ k, 4 - held.length = k + 1 := ⟨3 - held.length, by omega⟩
    unfold extendHeld
    rw [if_pos hlt]
    by_cases hb : framesIsPrefix kind (held ++ [b]) = true
    · have hlen : 4 - (held ++ [b]).length = k := by
        rw [List.length_append, List.length_singleton]
        omega
      rw [hk, List.take_succ_cons, ← List.singleton_append, ← List.append_assoc] at h
      obtain ⟨held', n, heq, hn, hle⟩ := ih hb (by rw [hlen]; exact h)
      rw [if_pos hb, heq]
      rw [List.length_append, List.length_singleton] at hle
      exact ⟨held', n + 1, rfl, by rw [List.length_cons]; omega, by omega⟩
    · rw [if_neg hb]
      exact ⟨held, 0, rfl, by simp, by omega⟩

/-! ## One call -/

section Calls

variable (feed : σ → List UInt8 → Status × σ) (z : σ) {f : Frames} {w : Window} {mode : Flush}
  {flags : UInt32}

theorem between_trailing (hf : Undecided kind flags f)
    (h : framesIsPrefix kind (f.held ++ w.input.take (4 - f.held.length)) = false) :
    ∃ f' n, framesBetween feed f z w mode = (.streamEnd, f', z, w.take n) ∧ f'.state = .done ∧
      f'.flags = flags ∧ n < w.input.length ∧ f.held.length + n < 4 ∧ (f.held = [] → n = 0) := by
  unfold framesBetween
  rw [hf.state]
  dsimp only
  rw [if_neg (by rw [hf.flags_eq]; exact hf.concat), hf.kind_eq]
  by_cases hnil : f.held = []
  · rw [hnil, List.length_nil, Nat.sub_zero, List.nil_append] at h
    have hin : w.input ≠ [] := by
      rintro heq
      rw [heq] at h
      cases h
    rw [if_pos hnil, if_neg hin, if_pos h]
    exact ⟨{ f with state := .done, kind := kind }, 0, by rw [Window.take_zero], rfl, hf.flags_eq,
      List.length_pos_iff.mpr hin, by simp [hnil], fun _ => rfl⟩
  · obtain ⟨held', n, heq, hn, hle⟩ := extendHeld_disproved hf.held h
    rw [if_neg hnil, heq]
    exact ⟨_, n, rfl, rfl, hf.flags_eq, hn, hle, fun h => absurd h hnil⟩

/-- They are a magic: the library reads it, or is handed it. -/
theorem between_another (hf : Undecided kind flags f)
    (h : framesIsPrefix kind (f.held ++ w.input.take (4 - f.held.length)) = true)
    (hfour : 4 ≤ f.held.length + w.input.length) :
    ∃ f', f'.state ≠ .done ∧
      (f.held = [] ∧ f'.state = .body ∧ framesBetween feed f z w mode = (.ok, f', z, w) ∨
      f.held ≠ [] ∧ ∃ st z', feed z (f.held ++ w.input.take (4 - f.held.length)) = (st, z') ∧
        (st = .ok → f'.state = .body) ∧
        framesBetween feed f z w mode = (st, f', z', w.take (4 - f.held.length))) := by
  have hshort := hf.short
  unfold framesBetween
  rw [hf.state]
  dsimp only
  rw [if_neg (by rw [hf.flags_eq]; exact hf.concat), hf.kind_eq]
  by_cases hnil : f.held = []
  · rw [hnil, List.length_nil] at hfour h
    rw [Nat.sub_zero, List.nil_append] at h
    have hin : w.input ≠ [] := by
      rintro heq
      rw [heq] at hfour
      simp at hfour
    have hlen : (w.input.take 4).length = 4 := by
      rw [List.length_take]
      omega
    rw [if_pos hnil, if_neg hin, if_neg (by simp [h]), if_pos hlen]
    exact ⟨_, by simp, .inl ⟨hnil, rfl, rfl⟩⟩
  · rw [if_neg hnil, extendHeld_eq h]
    dsimp only
    have hlen : (f.held ++ w.input.take (4 - f.held.length)).length = 4 := by
      rw [List.length_append, List.length_take]
      omega
    rw [if_pos hlen, show min (4 - f.held.length) w.input.length = 4 - f.held.length by omega]
    rcases hfeed : feed z (f.held ++ w.input.take (4 - f.held.length)) with ⟨st, z'⟩
    by_cases hst : st = .ok
    · subst hst
      exact ⟨_, by simp, .inr ⟨hnil, _, _, rfl, fun _ => rfl, rfl⟩⟩
    · refine ⟨{ f with held := [], kind := kind }, by simp [hf.state], .inr ⟨hnil, _, _, rfl,
        fun h => absurd h hst, ?_⟩⟩
      cases st <;> first | exact absurd rfl hst | simp [hf.state]

theorem between_hold (hf : Undecided kind flags f)
    (h : framesIsPrefix kind (f.held ++ w.input) = true)
    (hfew : f.held.length + w.input.length < 4) (hmode : mode ≠ .finish) :
    framesBetween feed f z w mode =
      (.needInput, { f with held := f.held ++ w.input }, z, w.take w.input.length) := by
  have htake (n : ℕ) (hn : w.input.length ≤ n) : w.input.take n = w.input :=
    List.take_of_length_le hn
  unfold framesBetween
  rw [hf.state]
  dsimp only
  rw [if_neg (by rw [hf.flags_eq]; exact hf.concat), hf.kind_eq]
  by_cases hnil : f.held = []
  · rw [if_pos hnil]
    rw [hnil, List.nil_append] at h
    by_cases hin : w.input = []
    · rw [if_pos hin, if_pos hmode, hin, List.length_nil, Window.take_zero, List.append_nil,
        ← hf.kind_eq, ← hf.state]
    · rw [if_neg hin, htake 4 (by omega), if_neg (by simp [h]), if_neg (by omega), if_neg hmode,
        hnil, List.nil_append]
  · rw [if_neg hnil, extendHeld_eq (by rwa [htake _ (by omega)]), htake _ (by omega)]
    dsimp only
    rw [if_neg (by rw [List.length_append]; omega), if_pos hmode, Nat.min_eq_right (by omega)]

theorem between_cut (hf : Undecided kind flags f)
    (h : framesIsPrefix kind (f.held ++ w.input) = true)
    (hfew : f.held.length + w.input.length < 4) :
    ∃ f', f'.state = .done ∧ f'.flags = flags ∧ framesBetween feed f z w .finish =
      (if f.held ≠ [] ∧ flags &&& decRejectTrailing ≠ 0 then .errTrailing else .streamEnd, f', z,
        w.take (if f.held = [] then 0 else w.input.length)) := by
  have htake (n : ℕ) (hn : w.input.length ≤ n) : w.input.take n = w.input :=
    List.take_of_length_le hn
  unfold framesBetween
  rw [hf.state]
  dsimp only
  rw [if_neg (by rw [hf.flags_eq]; exact hf.concat), hf.kind_eq]
  by_cases hnil : f.held = []
  · rw [hnil, List.nil_append] at h
    refine ⟨{ f with state := .done, kind := kind }, rfl, hf.flags_eq, ?_⟩
    have hpolicy : ¬ (f.held ≠ [] ∧ flags &&& decRejectTrailing ≠ 0) := fun h => h.1 hnil
    rw [if_pos hnil, if_pos hnil, if_neg hpolicy, Window.take_zero]
    by_cases hin : w.input = []
    · rw [if_pos hin, if_neg (by simp)]
    · rw [if_neg hin, htake 4 (by omega), if_neg (by simp [h]), if_neg (by omega), if_pos rfl]
  · refine ⟨{ f with held := [], state := .done, kind := kind }, rfl, hf.flags_eq, ?_⟩
    rw [if_neg hnil, if_neg hnil, extendHeld_eq (by rwa [htake _ (by omega)]), htake _ (by omega)]
    dsimp only
    rw [if_neg (by rw [List.length_append]; omega), if_neg (by simp),
      Nat.min_eq_right (by omega), hf.flags_eq]
    simp [hnil]

end Calls

/-! ## The whole tail -/

variable {feed : σ → List UInt8 → Status × σ} {f : Frames} {flags : UInt32}

theorem Undecided.hold (hf : Undecided kind flags f) {x : List UInt8}
    (h : framesIsPrefix kind (f.held ++ x) = true) (hfew : f.held.length + x.length < 4) :
    Undecided kind flags { f with held := f.held ++ x } :=
  ⟨hf.state, hf.kind_eq, hf.flags_eq, hf.concat, by simpa using hfew, h⟩

theorem take_four {held x rest : List UInt8} (hshort : held.length < 4)
    (hfour : 4 ≤ held.length + x.length) :
    (held ++ (x ++ rest)).take 4 = held ++ x.take (4 - held.length) := by
  rw [List.take_append, List.take_of_length_le hshort.le,
    List.take_append_of_le_length (by omega)]

theorem not_beginsFrame {held x rest : List UInt8} (hshort : held.length < 4)
    (h : framesIsPrefix kind (held ++ x.take (4 - held.length)) = false) :
    ¬ BeginsFrame kind (held ++ (x ++ rest)) := by
  rw [beginsFrame_iff]
  rintro ⟨-, hmagic⟩
  have hbegun : held ++ x.take (4 - held.length) <+: (held ++ (x ++ rest)).take 4 := by
    rw [List.take_append, List.take_of_length_le hshort.le]
    refine (List.prefix_append_right_inj held).mpr ?_
    rw [List.take_append]
    exact List.prefix_append ..
  rw [framesIsPrefix_mono hbegun hmagic] at h
  cases h

theorem classified_trailing (hf : Undecided kind flags f) {x later : List UInt8} {z : σ}
    (h : framesIsPrefix kind (f.held ++ x.take (4 - f.held.length)) = false) {f' : Frames} {n : ℕ}
    (hdone : f'.state = .done) (hflags : f'.flags = flags) (hn : n < x.length)
    (hle : f.held.length + n < 4) :
    BetweenEnd.Classified feed kind flags z (f.held ++ (x ++ later))
      ⟨.streamEnd, f', z, f.held.length + n, x.drop n, later⟩ := by
  have hnot : ¬ BeginsFrame kind (f.held ++ (x ++ later)) := not_beginsFrame hf.short h
  have hne : x.drop n ≠ [] := by
    rw [ne_eq, List.drop_eq_nil_iff]
    omega
  have htail : f.held ++ (x ++ later) ≠ [] := by
    intro hnil
    simp only [List.append_eq_nil_iff] at hnil
    simp [hnil.2.1] at hn
  refine ⟨?_, ?_, fun hb => absurd hb hnot, fun hb => absurd hb hnot, fun _ => rfl, fun _ => ?_,
    fun _ => ?_⟩
  · rw [BetweenEnd.classification, if_neg (by simpa using hdone), if_neg (by simp [hne]), tailClass,
      if_neg hnot, if_neg htail]
  · simp only
    rw [← List.drop_drop, List.drop_left, List.drop_append_of_le_length hn.le]
  · simp only
    omega
  · simp only [BetweenEnd.policyStatus, hflags, true_and]
    split_ifs <;> simp_all

theorem classified_another {x later : List UInt8} {z z' : σ} {st : Status} {f' : Frames}
    (hf : Undecided kind flags f)
    (h : framesIsPrefix kind (f.held ++ x.take (4 - f.held.length)) = true)
    (hfour : 4 ≤ f.held.length + x.length) (hstate : f'.state ≠ .done)
    (hbody : st = .ok → f'.state = .body) {n : ℕ} (hn : n ≤ x.length)
    (hans : f.held.length + n = 0 ∧ st = .ok ∧ z' = z ∨ f.held.length + n = 4 ∧
      (st, z') = feed z (f.held ++ x.take (4 - f.held.length))) :
    BetweenEnd.Classified feed kind flags z (f.held ++ (x ++ later))
      ⟨st, f', z', f.held.length + n, x.drop n, later⟩ := by
  have htake : (f.held ++ (x ++ later)).take 4 = _ := take_four hf.short hfour
  have hbegins : BeginsFrame kind (f.held ++ (x ++ later)) := by
    rw [beginsFrame_iff, htake]
    exact ⟨by simp only [List.length_append]; omega, h⟩
  refine ⟨?_, ?_, fun _ => ?_, fun _ => hbody, fun hb => absurd hbegins hb,
    fun hb => absurd hbegins hb, fun hb => absurd hbegins hb⟩
  · rw [BetweenEnd.classification, if_pos hstate, tailClass, if_pos hbegins]
  · simp only
    rw [← List.drop_drop, List.drop_left, List.drop_append_of_le_length hn]
  · rw [htake]
    exact hans

/-- The answer to the last call when fewer than four bytes have come. -/
theorem classified_cut (kind : FramesKind) (feed : σ → List UInt8 → Status × σ) (z : σ) {x : List UInt8}
    (hfew : f.held.length + x.length < 4) {f' : Frames} (hdone : f'.state = .done)
    (hflags : f'.flags = flags) {n : ℕ} (hn : n = if f.held = [] then 0 else x.length) :
    BetweenEnd.Classified feed kind flags z (f.held ++ (x ++ []))
      ⟨if f.held ≠ [] ∧ flags &&& decRejectTrailing ≠ 0 then .errTrailing else .streamEnd, f', z,
        f.held.length + n, x.drop n, []⟩ := by
  have hnot : ¬ BeginsFrame kind (f.held ++ (x ++ [])) := by
    rintro ⟨hlen, -⟩
    simp only [List.length_append, List.length_nil] at hlen
    omega
  refine ⟨?_, ?_, fun hb => absurd hb hnot, fun hb => absurd hb hnot, fun _ => rfl, fun _ => ?_,
    fun _ => ?_⟩
  · rw [BetweenEnd.classification, if_neg (by simpa using hdone), tailClass, if_neg hnot]
    by_cases hnil : f.held = []
    · simp [hnil, hn]
    · have := List.length_pos_iff.mpr hnil
      rw [if_neg (by simp only; omega), if_neg (by simp [hnil])]
  · simp only [List.append_nil]
    rw [← List.drop_drop, List.drop_left]
  · simp only
    split_ifs at hn <;> omega
  · by_cases hnil : f.held = []
    · by_cases hx : x = []
      · simp [BetweenEnd.policyStatus, hnil, hn, hx]
      · simp only [BetweenEnd.policyStatus, hnil, hn, hflags]
        split_ifs <;> simp_all
    · simp only [BetweenEnd.policyStatus, hnil, hn, hflags]
      split_ifs <;> simp_all

/-- A call that settles the tail, under either flush. -/
theorem between_settles (hfeed : ∀ z p, (feed z p).1 ≠ .needInput) (z : σ)
    (hf : Undecided kind flags f) (x later : List UInt8) (mode : Flush)
    (hsettled : 4 ≤ f.held.length + x.length ∨
      framesIsPrefix kind (f.held ++ x.take (4 - f.held.length)) = false) :
    ∃ st f' z' n, framesBetween feed f z ⟨x, 0, []⟩ mode = (st, f', z', ⟨x.drop n, 0, []⟩) ∧
      st ≠ .needInput ∧ n ≤ x.length ∧
      BetweenEnd.Classified feed kind flags z (f.held ++ (x ++ later))
        ⟨st, f', z', f.held.length + n, x.drop n, later⟩ ∧ (f.held = [] → n = 0) := by
  by_cases hbegun : framesIsPrefix kind (f.held ++ x.take (4 - f.held.length)) = true
  · have hfour : 4 ≤ f.held.length + x.length := by
      rcases hsettled with h | h
      · exact h
      · rw [hbegun] at h
        cases h
    have hshort := hf.short
    obtain ⟨f', hstate, ⟨hnil, hbody, hcall⟩ | ⟨hne, st, z', hfed, hbody, hcall⟩⟩ :=
      between_another feed z (w := ⟨x, 0, []⟩) hf hbegun hfour
    · exact ⟨.ok, f', z, 0, by rw [hcall]; rfl, by simp, Nat.zero_le _,
        classified_another hf hbegun hfour hstate (fun _ => hbody) (Nat.zero_le _)
          (.inl ⟨by simp [hnil], rfl, rfl⟩), fun _ => rfl⟩
    · refine ⟨st, f', z', 4 - f.held.length, hcall, ?_, by omega,
        classified_another hf hbegun hfour hstate hbody (by omega) (.inr ⟨by omega, hfed.symm⟩),
        fun h => absurd h hne⟩
      have := hfeed z (f.held ++ x.take (4 - f.held.length))
      rwa [hfed] at this
  · rw [Bool.not_eq_true] at hbegun
    obtain ⟨f', n, hcall, hdone, hflags, hn, hle, hzero⟩ :=
      between_trailing feed z (w := ⟨x, 0, []⟩) hf hbegun
    exact ⟨.streamEnd, f', z, n, hcall, by simp, hn.le,
      classified_trailing hf hbegun hdone hflags hn hle, hzero⟩

/-- However the rest of the tail is split, it is classified as a whole with what is held. -/
theorem betweenRun_classified (hfeed : ∀ z p, (feed z p).1 ≠ .needInput) (z : σ)
    (early : List (List UInt8 × Flush)) (hmodes : ∀ x ∈ early, x.2 ≠ .finish) (last : List UInt8)
    (hf : Undecided kind flags f) :
    BetweenEnd.Classified feed kind flags z (f.held ++ betweenTail early last)
        (betweenRun feed f z f.held.length [] early last) ∧
      (f.held = [] → 4 ≤ (firstBuffer early last).length →
        (betweenRun feed f z f.held.length [] early last).consumed = 0) := by
  have hcount (x : List UInt8) (n : ℕ) (hn : n ≤ x.length) :
      x.length - (x.drop n).length = n := by
    rw [List.length_drop]
    omega
  induction early generalizing f with
  | nil =>
    rw [betweenTail, List.map_nil, List.flatten_nil, List.nil_append]
    unfold betweenRun
    rw [List.nil_append]
    by_cases hsettled : 4 ≤ f.held.length + last.length ∨
        framesIsPrefix kind (f.held ++ last.take (4 - f.held.length)) = false
    · obtain ⟨st, f', z', n, hcall, -, hn, hclass, hzero⟩ :=
        between_settles hfeed z hf last [] .finish hsettled
      rw [hcall]
      simp only [hcount last n hn]
      rw [List.append_nil] at hclass
      refine ⟨hclass, fun hnil _ => ?_⟩
      rw [hnil, hzero hnil, List.length_nil]
    · rw [not_or, Bool.not_eq_false, not_le] at hsettled
      obtain ⟨hfew, hbegun⟩ := hsettled
      rw [List.take_of_length_le (by omega)] at hbegun
      obtain ⟨f', hdone, hflags, hcall⟩ :=
        between_cut feed z (w := ⟨last, 0, []⟩) hf hbegun hfew
      rw [hcall]
      have hn : (if f.held = [] then 0 else last.length) ≤ last.length := by
        split_ifs <;> omega
      simp only [Window.take_input, hcount last _ hn]
      have hclass := classified_cut kind feed z hfew hdone hflags rfl
      rw [List.append_nil] at hclass
      refine ⟨hclass, fun hnil hlong => ?_⟩
      rw [hnil] at hfew
      simp only [firstBuffer, List.length_nil] at hlong hfew
      omega
  | cons call early ih =>
    obtain ⟨chunk, mode⟩ := call
    have hmode : mode ≠ .finish := hmodes _ List.mem_cons_self
    rw [betweenTail, List.map_cons, List.flatten_cons, List.append_assoc]
    unfold betweenRun
    rw [List.nil_append]
    by_cases hsettled : 4 ≤ f.held.length + chunk.length ∨
        framesIsPrefix kind (f.held ++ chunk.take (4 - f.held.length)) = false
    · obtain ⟨st, f', z', n, hcall, hne, hn, hclass, hzero⟩ :=
        between_settles hfeed z hf chunk ((early.map Prod.fst).flatten ++ last) mode hsettled
      rw [hcall]
      have hconsumed (hnil : f.held = []) : f.held.length + n = 0 := by
        rw [hnil, hzero hnil, List.length_nil]
      cases st <;> first
        | exact absurd rfl hne
        | (simp only [hcount chunk n hn]
           exact ⟨hclass, fun hnil _ => hconsumed hnil⟩)
    · rw [not_or, Bool.not_eq_false, not_le] at hsettled
      obtain ⟨hfew, hbegun⟩ := hsettled
      rw [List.take_of_length_le (by omega)] at hbegun
      rw [between_hold feed z hf hbegun hfew hmode]
      have hnext := ih (fun x hx => hmodes x (List.mem_cons_of_mem _ hx)) (hf.hold hbegun hfew)
      simp only [Window.take_input, List.drop_length, List.length_nil, Nat.sub_zero]
      simp only [List.length_append, List.append_assoc] at hnext
      refine ⟨hnext.1, fun hnil hlong => ?_⟩
      simp only [firstBuffer, hnil, List.length_nil] at hlong hfew
      omega

/-! ## The two codecs -/

theorem feedHeld_ne_needInput {ε : Type} {L : FrameLib ε} {fail : ε → Status}
    {all : FrameStep L.State ε → ℕ → Bool} (hfail : ∀ code, fail code ≠ .needInput) (z : L.State)
    (p : List UInt8) : (feedHeld fail all z p).1 ≠ .needInput := by
  unfold feedHeld
  dsimp only
  split
  · exact hfail _
  · split_ifs <;> simp

theorem zstdError_ne_needInput (encoder : Bool) (maxOutput : UInt64) (code : ZstdError) :
    zstdError encoder maxOutput code ≠ .needInput := by
  cases code <;> simp only [zstdError] <;> (try split_ifs) <;> simp

theorem lz4fError_ne_needInput (encoder : Bool) (code : Lz4fError) :
    lz4fError encoder code ≠ .needInput := by
  cases code <;> simp only [lz4fError] <;> (try split_ifs) <;> simp

/-- After a frame of either codec, however the bytes that follow are split, the classification
is that of the bytes as a whole, and the library is given each byte of a next magic once. A
buffer that shows four bytes settles it with nothing consumed. -/
theorem between_classifies (early : List (List UInt8 × Flush)) (last : List UInt8)
    (hmodes : ∀ x ∈ early, x.2 ≠ .finish) (f : Frames)
    (hconcat : f.flags &&& decConcatMembers ≠ 0) :
    (∀ (Z : Zstd) (maxOutput : UInt64) (z : Z.State), f.kind = .zstd →
      let r := betweenRun (zstdFeedHeld maxOutput) (framesEnded f) z 0 [] early last
      BetweenEnd.Classified (zstdFeedHeld maxOutput) .zstd f.flags z (betweenTail early last) r ∧
        (4 ≤ (firstBuffer early last).length → r.consumed = 0)) ∧
    (∀ (F : Lz4f) (z : F.State), f.kind = .lz4 →
      let r := betweenRun lz4fFeedHeld (framesEnded f) z 0 [] early last
      BetweenEnd.Classified lz4fFeedHeld .lz4 f.flags z (betweenTail early last) r ∧
        (4 ≤ (firstBuffer early last).length → r.consumed = 0)) := by
  have hstart {kind : FramesKind} (hkind : f.kind = kind) :
      Undecided kind f.flags (framesEnded f) := ⟨rfl, hkind, rfl, hconcat, by simp [framesEnded], rfl⟩
  constructor
  · intro Z maxOutput z hkind r
    obtain ⟨hclass, hzero⟩ := betweenRun_classified
      (feedHeld_ne_needInput (zstdError_ne_needInput false maxOutput)) z early hmodes last
      (hstart hkind)
    exact ⟨hclass, hzero rfl⟩
  · intro F z hkind r
    obtain ⟨hclass, hzero⟩ := betweenRun_classified
      (feedHeld_ne_needInput (lz4fError_ne_needInput false)) z early hmodes last (hstart hkind)
    exact ⟨hclass, hzero rfl⟩

/-- The zstd magic split in two is handed over whole; a `28` under `ZU_FINISH` is trailing. -/
theorem between_classifies_split :
    (betweenRun (zstdFeedHeld (Z := refZstd zstdA) 0)
        (framesEnded (framesInit .zstd decConcatMembers)) (⟨0, 0⟩ : RefUnframe) 0 []
        [([0x28, 0xB5], .run)] [0x2F, 0xFD]).classification = .another ∧
      (betweenRun (zstdFeedHeld (Z := refZstd zstdA) 0)
        (framesEnded (framesInit .zstd decConcatMembers)) (⟨0, 0⟩ : RefUnframe) 0 []
        [([0x28], .run)] []).classification = .trailing := by
  have h (early : List (List UInt8 × Flush)) (last : List UInt8)
      (hmodes : ∀ x ∈ early, x.2 ≠ .finish) :=
    ((between_classifies early last hmodes (framesInit .zstd decConcatMembers) (by decide)).1
      (refZstd zstdA) 0 (⟨0, 0⟩ : RefUnframe) rfl).1.class_eq
  exact ⟨(h [([0x28, 0xB5], .run)] [0x2F, 0xFD] (by simp)).trans (by decide),
    (h [([0x28], .run)] [] (by simp)).trans (by decide)⟩

end Zukomp
