import Zukomp.Core.Contract
import Zukomp.Frames.Process

/-! # Decoding a stream of frames

`FramePhase` relates the library and the frame continuation to a position in the frame
they are in, and `FramedAt` to a position in the stream: a library that owes a byte is one
ahead of what has been delivered. Each turn of the loop carries the stream, and moves it or is
the last of the call: a library that bears a few calls which move nothing bears them all.
-/

namespace Zukomp

open Library

variable {ε : Type} {L : FrameLib ε} {Valid : Coding UInt8 → Prop}

/-- Frames in a row as one coding, with other bytes after them. -/
def framesCoding (fs : List (Coding UInt8)) (tail : List UInt8) : Coding UInt8 :=
  (Coding.concat fs).followed tail

/-- Frames in a row. -/
def frameCodes (fs : List (Coding UInt8)) : List UInt8 := (Coding.concat fs).code

def frameTexts (fs : List (Coding UInt8)) : List UInt8 := (Coding.concat fs).text

/-- A frame the library decodes, behind a magic that zukomp knows. -/
structure FramesKind.ValidFrame (kind : FramesKind) (Valid : Coding UInt8 → Prop)
    (c : Coding UInt8) : Prop where
  valid : Valid c
  long : 4 < c.code.length
  magic : framesIsPrefix kind (c.code.take 4) = true

/-- One frame, or with `ZU_DEC_CONCAT_MEMBERS` one or more. -/
structure FramesKind.ValidFrames (kind : FramesKind) (Valid : Coding UInt8 → Prop)
    (decFlags : UInt32) (fs : List (Coding UInt8)) : Prop where
  frames : ∀ c ∈ fs, kind.ValidFrame Valid c
  nonempty : fs ≠ []
  single : decFlags &&& decConcatMembers = 0 → fs.length = 1

/-- A library `p` bytes into the frame `c` with `q` bytes of its text written, or between frames with
the first bytes of what follows held. Before its first byte a frame may find the library with less
patience left: the call that ended the last one need not have moved much. -/
inductive FramePhase (I : ReadsFrames L Valid) (m : ℕ) (s : FramedState L) (c : Coding UInt8)
    (after : List UInt8) : ℕ → ℕ → Prop
  | body {p q : ℕ} (state : s.frames.state = .body) (noHeld : s.frames.held = [])
      (engine : I.At (I.spare + if p = 0 then m else m + 2) c s.dctx p q)
      (unended : ¬ c.Ended p q) : FramePhase I m s c after p q
  | between (state : s.frames.state = .between) (held : s.frames.held <+: after)
      (short : s.frames.held.length < 4)
      (engine : ∀ c', Valid c' → I.At (I.spare + m) c' s.dctx 0 0) :
      FramePhase I m s c after (c.code.length + s.frames.held.length) c.text.length

/-- A decoder that has read `p` bytes of the stream and delivered `q`; an owed byte is the
next of the text, and the last that the library has done. -/
structure FramedAt (I : ReadsFrames L Valid) (m : ℕ) (kind : FramesKind) (decFlags : UInt32)
    (fs : List (Coding UInt8)) (tail : List UInt8) (s : FramedState L) (p q : ℕ) : Prop where
  kind_eq : s.frames.kind = kind
  flags : s.frames.flags = decFlags
  owed : (framesCoding fs tail).Writes q s.frames.owed.toList
  place : ∃ pre c post i j, fs = pre ++ c :: post ∧
    FramePhase I (if s.frames.owed = none then m else 2) s c (framesCoding post tail).code i j ∧
    p = (frameCodes pre).length + i ∧
    q + s.frames.owed.toList.length = (frameTexts pre).length + j

/-- The stream as the frames before, the current one and those to come. -/
structure FrameSplit (kind : FramesKind) (Valid : Coding UInt8 → Prop) (decFlags : UInt32)
    (fs pre : List (Coding UInt8)) (c : Coding UInt8) (post : List (Coding UInt8)) : Prop where
  valid : kind.ValidFrames Valid decFlags fs
  eq : fs = pre ++ c :: post

variable {kind : FramesKind} {decFlags : UInt32} {fs pre post : List (Coding UInt8)}
  {c : Coding UInt8} {tail : List UInt8} {I : ReadsFrames L Valid} {s : FramedState L}
  {w : Window} {mode : Flush} {m n p q i j : ℕ}

/-! ## The library's patience -/

theorem FramePhase.weaken {after : List UInt8} (hmn : m ≤ n)
    (h : FramePhase I n s c after i j) : FramePhase I m s c after i j := by
  cases h with
  | body state noHeld engine unended =>
    refine .body state noHeld (I.weaken ?_ engine) unended
    split_ifs <;> omega
  | between state held short engine =>
    exact .between state held short fun c' hc' => I.weaken (by omega) (engine c' hc')

theorem FramedAt.weaken (hmn : m ≤ n) (h : FramedAt I n kind decFlags fs tail s p q) :
    FramedAt I m kind decFlags fs tail s p q := by
  obtain ⟨pre, c, post, i, j, heq, hphase, hp, hq⟩ := h.place
  refine ⟨h.kind_eq, h.flags, h.owed, pre, c, post, i, j, heq, ?_, hp, hq⟩
  split_ifs at hphase ⊢ with howed
  · exact hphase.weaken hmn
  · exact hphase

/-- A tireless library is none the worse for a call that moves nothing. -/
theorem FramedAt.rested (hI : I.Tireless) (h : FramedAt I m kind decFlags fs tail s p q) :
    FramedAt I n kind decFlags fs tail s p q := by
  obtain ⟨pre, c, post, i, j, heq, hphase, hp, hq⟩ := h.place
  refine ⟨h.kind_eq, h.flags, h.owed, pre, c, post, i, j, heq, ?_, hp, hq⟩
  cases hphase with
  | body state noHeld engine unended => exact .body state noHeld (hI engine) unended
  | between state held short engine =>
    exact .between state held short fun c' hc' => hI (engine c' hc')

/-! ## The frames -/

theorem frameCodes_next (pre : List (Coding UInt8)) (c : Coding UInt8) :
    (frameCodes (pre ++ [c])).length = (frameCodes pre).length + c.code.length := by
  simp [frameCodes]

theorem frameTexts_next (pre : List (Coding UInt8)) (c : Coding UInt8) :
    (frameTexts (pre ++ [c])).length = (frameTexts pre).length + c.text.length := by
  simp [frameTexts]

@[simp] theorem frameTexts_nil : frameTexts [] = [] := rfl

@[simp] theorem framesCoding_text (fs : List (Coding UInt8)) (tail : List UInt8) :
    (framesCoding fs tail).text = frameTexts fs := rfl

@[simp] theorem framesCoding_nil_code (tail : List UInt8) : (framesCoding [] tail).code = tail := rfl

theorem framesCoding_cons_code (c : Coding UInt8) (post : List (Coding UInt8))
    (tail : List UInt8) :
    (framesCoding (c :: post) tail).code = c.code ++ (framesCoding post tail).code := by
  simp [framesCoding]

namespace FrameSplit

theorem frame (h : FrameSplit kind Valid decFlags fs pre c post) : kind.ValidFrame Valid c :=
  h.valid.frames c (by rw [h.eq]; simp)

theorem coding (h : FrameSplit kind Valid decFlags fs pre c post) (tail : List UInt8) :
    framesCoding fs tail = (Coding.concat (pre ++ c :: post)).followed tail := by
  rw [h.eq, framesCoding]

theorem text_length (h : FrameSplit kind Valid decFlags fs pre c post) :
    (frameTexts fs).length = (frameTexts pre).length +
      (c.text.length + (frameTexts post).length) := by
  rw [h.eq]
  simp [frameTexts]

theorem drop (h : FrameSplit kind Valid decFlags fs pre c post) (hi : i ≤ c.code.length) :
    (framesCoding fs tail).code.drop ((frameCodes pre).length + i) =
      c.code.drop i ++ (framesCoding post tail).code := by
  rw [h.coding]
  exact Coding.followed_drop_code hi

theorem drop_after (h : FrameSplit kind Valid decFlags fs pre c post) (k : ℕ) :
    (framesCoding fs tail).code.drop ((frameCodes pre).length + (c.code.length + k)) =
      (framesCoding post tail).code.drop k := by
  rw [← Nat.add_assoc, ← List.drop_drop, h.drop le_rfl, List.drop_length, List.nil_append]

theorem code_length (h : FrameSplit kind Valid decFlags fs pre c post) (tail : List UInt8) :
    (framesCoding fs tail).code.length = (frameCodes pre).length +
      (c.code.length + (framesCoding post tail).code.length) := by
  rw [h.eq]
  simp [framesCoding, frameCodes]

theorem writes (h : FrameSplit kind Valid decFlags fs pre c post) (tail : List UInt8)
    {o : List UInt8} (hj : j ≤ c.text.length) (hw : c.Writes j o) :
    (framesCoding fs tail).Writes ((frameTexts pre).length + j) o := by
  rw [h.coding]
  exact Coding.Writes.concat hw hj

theorem sees (h : FrameSplit kind Valid decFlags fs pre c post) {x : List UInt8} {last : Prop}
    (hx : (framesCoding fs tail).Shows ((frameCodes pre).length + i) x last)
    (hi : i ≤ c.code.length) : c.Sees i x := by
  rw [h.coding] at hx
  exact Coding.Shows.sees hx hi

theorem at_ (h : FrameSplit kind Valid decFlags fs pre c post) (hkind : s.frames.kind = kind)
    (hflags : s.frames.flags = decFlags) (howed : s.frames.owed = none)
    (hp : FramePhase I m s c (framesCoding post tail).code i j) :
    FramedAt I m kind decFlags fs tail s ((frameCodes pre).length + i)
      ((frameTexts pre).length + j) :=
  ⟨hkind, hflags, by simp [howed, Coding.Writes], pre, c, post, i, j, h.eq, by rwa [if_pos howed],
    rfl, by simp [howed]⟩

theorem next {n : Coding UInt8} (h : FrameSplit kind Valid decFlags fs pre c (n :: post)) :
    decFlags &&& decConcatMembers ≠ 0 ∧ FrameSplit kind Valid decFlags fs (pre ++ [c]) n post := by
  refine ⟨fun hzero => ?_, h.valid, by rw [h.eq]; simp⟩
  have := h.valid.single hzero
  rw [h.eq] at this
  simp only [List.length_append, List.length_cons] at this
  omega

end FrameSplit

/-! ## Turns in the body of a frame -/

/-- Where a decoder is that has gone on from `(p, q)`: one that has moved finds its library restored. -/
abbrev FramesGone (I : ReadsFrames L Valid) (m l : ℕ) (kind : FramesKind) (decFlags : UInt32)
    (fs : List (Coding UInt8)) (tail : List UInt8) (p q : ℕ) :
    FramedState L → Bool → ℕ → ℕ → Prop :=
  fun s _ p' q' => FramedAt I (if (p', q') = (p, q) then m else l) kind decFlags fs tail s p' q'

/-- What a turn owes at `(p, q)` of the frames and what follows them. The answer may cost the library
one call that moves nothing. -/
abbrev FramesCarry (I : ReadsFrames L Valid) (m : ℕ) (kind : FramesKind) (decFlags : UInt32)
    (fs : List (Coding UInt8)) (tail : List UInt8) (p q : ℕ) (w : Window) (mode : Flush) :
    FramedNext L → Prop :=
  Carries (framesCoding fs tail) (FramesGone I (m + 1) 2 kind decFlags fs tail p q)
    (FramesGone I m 1 kind decFlags fs tail p q) (fun _ => False) False p q w (mode == .finish)

theorem FramedAt.goes {last : Bool} {l p' q' : ℕ} (hm : m ≤ l)
    (h : FramedAt I l kind decFlags fs tail s p' q') :
    FramesGone I m l kind decFlags fs tail p q s last p' q' :=
  h.weaken (by split_ifs <;> omega)

theorem FramedAt.stays {last : Bool} {l : ℕ} (h : FramedAt I m kind decFlags fs tail s p q) :
    FramesGone I m l kind decFlags fs tail p q s last (p + 0) (q + ([] : List UInt8).length) := by
  unfold FramesGone
  rwa [if_pos (by simp)]

theorem FramesCarry.moved {p' q' : ℕ} {r : FramedNext L} (hm : m ≤ 1)
    (h : FramesCarry I 1 kind decFlags fs tail p' q' w mode r) :
    Carries (framesCoding fs tail) (FramesGone I (m + 1) 2 kind decFlags fs tail p q)
      (FramesGone I m 1 kind decFlags fs tail p q) (fun _ => False) False p' q' w (mode == .finish)
      r := by
  refine h.mono (fun s u v hat => ?_) fun s u v hat => ?_
  · refine FramedAt.goes (by omega) (?_ : FramedAt I 2 kind decFlags fs tail s _ _)
    simpa [FramesGone] using hat
  · refine FramedAt.goes hm (?_ : FramedAt I 1 kind decFlags fs tail s _ _)
    simpa [FramesGone] using hat

variable {fail : ε → Status} {feed : L.State → List UInt8 → Status × L.State}

theorem FrameSplit.read_of_finish (h : FrameSplit kind Valid decFlags fs pre c post)
    (hx : (framesCoding fs tail).Shows ((frameCodes pre).length + p) w.input (mode = .finish))
    (hp : p ≤ c.code.length) (hw : w.input = []) (hm : mode = .finish) : p = c.code.length := by
  have hall := congrArg List.length (hx.all hm)
  rw [hw, List.length_drop, h.code_length tail, List.length_nil] at hall
  omega

/-- The probe gets a byte out of a frame that has been read: it is owed from then on. -/
theorem probe_owes (fail : ε → Status) (tail : List UInt8)
    (hsplit : FrameSplit kind Valid decFlags fs pre c post)
    (hkind : s.frames.kind = kind) (hflags : s.frames.flags = decFlags)
    (hs : s.frames.state = .body) (hheld : s.frames.held = [])
    (hengine : I.At (n + 1) c s.dctx p q) (hend : ¬ c.Ended p q) (hp : p = c.code.length) :
    ∃ f z, framesStalled (frameProbe fail) s.frames s.dctx 0 0 .finish = (.needOutput, f, z) ∧
      q < c.text.length ∧
      FramedAt I m kind decFlags fs tail ⟨z, f⟩ ((frameCodes pre).length + p)
        ((frameTexts pre).length + q) := by
  have hr := I.decompress 1 hsplit.frame.valid hengine hend
    (show c.Sees p [] from by simp [Coding.Sees])
  have hread := L.used_le s.dctx [] 1
  have hroom := L.out_le s.dctx [] 1
  set r := L.decompress s.dctx [] 1 with hcall
  have hused : r.used = 0 := by simpa using hread
  -- all is read, so the library holds the rest of the text
  have hout : r.out ≠ [] := fun hnil => by
    have := (hr.starved hused hnil).2 (by simp)
    omega
  obtain ⟨b, hb⟩ : ∃ b, r.out = [b] := by
    refine List.length_eq_one_iff.mp ?_
    have := List.length_pos_iff.mpr hout
    omega
  have hwrites : c.Writes q [b] := hb ▸ hr.writes
  have hlt : q < c.text.length := by
    have := hwrites.length_le
    simp only [List.length_singleton] at this
    omega
  have howed := hsplit.writes tail hlt.le hwrites
  by_cases hdone : c.Ended (p + r.used) (q + r.out.length)
  · obtain ⟨hresult, hnext⟩ := hr.ended hdone
    simp only [if_pos (Or.inr hout)] at hnext
    refine ⟨{ framesEnded s.frames with owed := some b }, r.state, ?_, hlt,
      hkind, hflags, howed, pre, c, post, c.code.length + 0, c.text.length, hsplit.eq, ?_, ?_, ?_⟩
    · simp [framesStalled, frameProbe, ← hcall, hresult, hb]
    · exact .between rfl List.nil_prefix (by simp [framesEnded])
        fun c' hc' => I.weaken (by simp) (hnext c' hc')
    · rw [hp, Nat.add_zero]
    · have := hdone.2
      rw [hb] at this
      simp only [Option.toList_some, List.length_singleton] at this ⊢
      omega
  · obtain ⟨hresult, hat⟩ := hr.more hdone
    rw [if_pos (.inr hout)] at hat
    refine ⟨{ s.frames with owed := some b }, r.state, ?_, hlt,
      hkind, hflags, howed, pre, c, post, p + r.used, q + r.out.length, hsplit.eq, ?_, ?_, ?_⟩
    · simp [framesStalled, frameProbe, ← hcall, hresult, hb]
    · refine .body hs hheld (I.weaken ?_ hat) hdone
      split_ifs <;> simp_all
    · rw [hused, Nat.add_zero]
    · simp [hb, Nat.add_assoc]

/-- The library can move nothing: there is no room for text that is to come, or input is missing. -/
theorem stalled_carries (fail : ε → Status) (hm : m ≤ 1)
    (hsplit : FrameSplit kind Valid decFlags fs pre c post)
    (hkind : s.frames.kind = kind) (hflags : s.frames.flags = decFlags)
    (howed : s.frames.owed = none) (hs : s.frames.state = .body) (hheld : s.frames.held = [])
    (hengine : I.At (I.spare + if p = 0 then m else m + 2) c s.dctx p q) (hend : ¬ c.Ended p q)
    (hx : (framesCoding fs tail).Shows ((frameCodes pre).length + p) w.input (mode = .finish))
    (hstarved : (w.input ≠ [] → w.room = 0 ∧ q < c.text.length) ∧ (w.room ≠ 0 → p < c.code.length)) :
    ∃ st f z, framesStalled (frameProbe fail) s.frames s.dctx w.input.length w.room mode =
        (st, f, z) ∧ st ≠ .ok ∧
      FramesCarry I m kind decFlags fs tail ((frameCodes pre).length + p)
        ((frameTexts pre).length + q) w mode (.inr (st, ⟨z, f⟩, w)) := by
  obtain ⟨hp, -⟩ := I.bounds hengine
  have htext := hsplit.text_length
  have hat : FramedAt I m kind decFlags fs tail s _ _ :=
    hsplit.at_ hkind hflags howed (.body hs hheld hengine hend)
  have hmore (h : q < c.text.length) : (frameTexts pre).length + q + ([] : List UInt8).length <
      (framesCoding fs tail).text.length := by
    rw [framesCoding_text, htext, List.length_nil]
    omega
  by_cases hr : w.room = 0
  · by_cases hnil : w.input = []
    · by_cases hmode : mode = .finish
      · subst hmode
        have hread := hsplit.read_of_finish hx hp hnil rfl
        have hlong := hsplit.frame.long
        rw [if_neg (by omega)] at hengine
        obtain ⟨f, z, hst, hlt, hat'⟩ := probe_owes (m := 1) fail tail hsplit hkind hflags
          hs hheld (show I.At (I.spare + m + 1 + 1) c s.dctx p q from hengine) hend hread
        exact ⟨_, f, z, by rw [hnil, hr]; exact hst, by simp,
          .full (.refl w) .nil (hat'.goes hm) hr (.inl (hmore hlt))⟩
      · exact ⟨.needInput, s.frames, s.dctx, by simp [framesStalled, hr, hnil, hmode], by simp,
          .hungry (.refl w) .nil hat.stays (by simpa using hmode) hnil fun h => h.elim⟩
    · have hlt := (hstarved.1 hnil).2
      refine ⟨.needOutput, s.frames, s.dctx, ?_, by simp,
        .full (.refl w) .nil hat.stays hr (.inl (hmore hlt))⟩
      simp [framesStalled, hr, List.length_pos_iff.mpr hnil]
  · have hnil : w.input = [] := by
      by_contra hne
      exact hr (hstarved.1 hne).1
    have hmode : mode ≠ .finish := fun hmode => by
      have hpl := hsplit.read_of_finish hx hp hnil hmode
      have := hstarved.2 hr
      omega
    exact ⟨.needInput, s.frames, s.dctx, by simp [framesStalled, hr, hnil, hmode], by simp,
      .hungry (.refl w) .nil hat.stays (by simpa using hmode) hnil fun h => h.elim⟩

/-- A turn in the body of a frame. -/
theorem body_carries (hm : m ≤ 1) (hsplit : FrameSplit kind Valid decFlags fs pre c post)
    (hkind : s.frames.kind = kind) (hflags : s.frames.flags = decFlags)
    (howed : s.frames.owed = none) (hs : s.frames.state = .body) (hheld : s.frames.held = [])
    (hengine : I.At (I.spare + if p = 0 then m + 1 else m + 1 + 2) c s.dctx p q)
    (hend : ¬ c.Ended p q)
    (hx : (framesCoding fs tail).Shows ((frameCodes pre).length + p) w.input (mode = .finish)) :
    FramesCarry I m kind decFlags fs tail ((frameCodes pre).length + p)
        ((frameTexts pre).length + q) w mode (frameTurn fail feed mode s w) ∧
      ∀ y, frameTurn fail feed mode s w = .inl y → framedMeasure y < framedMeasure (s, w) := by
  obtain ⟨hp, hqt⟩ := I.bounds hengine
  have hpatience : I.spare + (if p = 0 then m + 1 else m + 1 + 2) =
      I.spare + (if p = 0 then m else m + 2) + 1 := by split_ifs <;> omega
  rw [hpatience] at hengine
  have hr := I.decompress w.room hsplit.frame.valid hengine hend (hsplit.sees hx hp)
  have hread := L.used_le s.dctx w.input w.room
  have hroom := L.out_le s.dctx w.input w.room
  unfold frameTurn
  rw [if_neg (by simp [hs])]
  dsimp only
  have hmeasure : framedMeasure (s, w) = 2 * (w.input.length + w.room) := by
    simp [framedMeasure, hs]
  set r := L.decompress s.dctx w.input w.room with hcall
  have hmoved : w.Moved r.used r.out ((w.take r.used).put r.out) := ⟨hread, hroom, rfl⟩
  have hwrites := hsplit.writes tail hqt hr.writes
  by_cases hdone : c.Ended (p + r.used) (q + r.out.length)
  · obtain ⟨hresult, hnext⟩ := hr.ended hdone
    have hnext (c' : Coding UInt8) (hc' : Valid c') : I.At (I.spare + 2) c' r.state 0 0 := by
      refine I.weaken ?_ (hnext c' hc')
      have hlong := hsplit.frame.long
      have hall := hdone.1
      split_ifs <;> omega
    rw [hresult]
    refine ⟨⟨r.used, r.out, hmoved, hwrites, FramedAt.goes (Nat.succ_le_succ hm) ?_⟩, ?_⟩
    · rw [Nat.add_assoc, Nat.add_assoc, hdone.1, hdone.2, ← Nat.add_zero c.code.length]
      exact hsplit.at_ hkind hflags howed (.between rfl List.nil_prefix (by simp [framesEnded]) hnext)
    · intro y hy
      cases hy
      have hsome : 0 < r.used + r.out.length := by
        by_contra hzero
        refine hend ?_
        rwa [show r.used = 0 by omega, show r.out.length = 0 by omega] at hdone
      rw [hmeasure]
      simp only [framedMeasure, framesEnded, Window.put_input, Window.take_input,
        List.length_drop, Window.put_room, Window.take_room, if_pos]
      omega
  · obtain ⟨hresult, hat⟩ := hr.more hdone
    rw [hresult]
    dsimp only
    by_cases hidle : r.used = 0 ∧ r.out = []
    · have hstarved := hr.starved hidle.1 hidle.2
      rw [if_neg (by simp [hidle])] at hat
      rw [if_pos hidle, hidle.1, hidle.2, Window.take_zero, Window.put_nil]
      rw [hidle.1, hidle.2] at hat
      obtain ⟨st, f, z, hst, hne, hcarry⟩ := stalled_carries fail hm
        (s := ⟨r.state, s.frames⟩) hsplit hkind hflags howed hs hheld hat hend hx hstarved
      simp only at hst
      rw [hst]
      cases st <;> first | exact absurd rfl hne | exact ⟨hcarry, by simp⟩
    · have hsome : 0 < r.used ∨ r.out ≠ [] := by
        by_contra hnone
        push Not at hnone
        exact hidle ⟨by omega, hnone.2⟩
      rw [if_pos hsome] at hat
      rw [if_neg hidle]
      refine ⟨⟨r.used, r.out, hmoved, hwrites, FramedAt.goes (Nat.succ_le_succ hm) ?_⟩, ?_⟩
      · rw [Nat.add_assoc, Nat.add_assoc]
        refine hsplit.at_ hkind hflags howed (.body hs hheld (I.weaken ?_ hat) hdone)
        split_ifs <;> omega
      · intro y hy
        cases hy
        have hsome : 0 < r.used + r.out.length := by
          rw [← List.length_pos_iff] at hsome
          omega
        rw [hmeasure]
        simp only [framedMeasure, hs, Window.put_input, Window.take_input, List.length_drop,
          Window.put_room, Window.take_room]
        simp only [reduceCtorEq, if_false]
        omega

/-! ## Turns between frames -/

theorem held_append {a held x : List UInt8} (hheld : held <+: a)
    (hx : x <+: a.drop held.length) : held ++ x <+: a := by
  obtain ⟨t, rfl⟩ := hheld
  rw [List.drop_left] at hx
  exact (List.prefix_append_right_inj held).mpr hx

theorem FrameSplit.magic_prefix {n : Coding UInt8}
    (h : FrameSplit kind Valid decFlags fs pre c (n :: post)) {held x : List UInt8}
    (hheld : held <+: (framesCoding (n :: post) tail).code) (hshort : held.length ≤ 4)
    (hx : x <+: (framesCoding (n :: post) tail).code.drop held.length) :
    held ++ x.take (4 - held.length) <+: n.code.take 4 := by
  have hlong := h.next.2.frame.long
  have happ := (held_append hheld hx).take 4
  rw [framesCoding_cons_code, List.take_append_of_le_length hlong.le, List.take_append,
    List.take_of_length_le hshort] at happ
  exact happ

/-- Where the library hands over the magics it is given. -/
def Feeds (I : ReadsFrames L Valid) (kind : FramesKind)
    (feed : L.State → List UInt8 → Status × L.State) : Prop :=
  ∀ {k n z}, kind.ValidFrame Valid n → I.At (k + 1) n z 0 0 →
    ∃ z', feed z (n.code.take 4) = (.ok, z') ∧ I.At (I.spare + 4) n z' 4 0

/-- A turn before another frame: hold its first bytes while fewer than four are there, and
start it when the magic is complete. -/
theorem next_carries {n : Coding UInt8} (hm : m ≤ 1)
    (hsplit : FrameSplit kind Valid decFlags fs pre c (n :: post))
    (hfeed : Feeds I kind feed)
    (hkind : s.frames.kind = kind) (hflags : s.frames.flags = decFlags)
    (howed : s.frames.owed = none) (hs : s.frames.state = .between)
    (hheld : s.frames.held <+: (framesCoding (n :: post) tail).code)
    (hshort : s.frames.held.length < 4) (hengine : ∀ c', Valid c' → I.At (I.spare + (m + 1)) c' s.dctx 0 0)
    (hx : (framesCoding fs tail).Shows
      ((frameCodes pre).length + (c.code.length + s.frames.held.length)) w.input
      (mode = .finish)) :
    FramesCarry I m kind decFlags fs tail
        ((frameCodes pre).length + (c.code.length + s.frames.held.length))
        ((frameTexts pre).length + c.text.length) w mode (frameTurn fail feed mode s w) ∧
      ∀ y, frameTurn fail feed mode s w = .inl y → framedMeasure y < framedMeasure (s, w) := by
  obtain ⟨hconcat, hnext⟩ := hsplit.next
  have hframe := hnext.frame
  have hlong := hframe.long
  have hview := hx.next
  rw [hsplit.drop_after] at hview
  have hmagic := hsplit.magic_prefix hheld hshort.le hview
  have hbegun := framesIsPrefix_mono hmagic hframe.magic
  -- fewer bytes than the magic has are not the rest of the stream
  have hmode (hfew : s.frames.held.length + w.input.length < 4) : mode ≠ .finish := fun hm => by
    have hall := congrArg List.length (hx.all hm)
    rw [hsplit.drop_after, framesCoding_cons_code, List.length_drop, List.length_append] at hall
    omega
  have hat (f : Frames) (z : L.State) (hk : f.kind = kind) (hf : f.flags = decFlags)
      (ho : f.owed = none) (hfs : f.state = .between) (hz : z = s.dctx)
      (hfh : f.held <+: (framesCoding (n :: post) tail).code) (hfl : f.held.length < 4) :
      FramedAt I 1 kind decFlags fs tail ⟨z, f⟩
        ((frameCodes pre).length + (c.code.length + f.held.length))
        ((frameTexts pre).length + c.text.length) :=
    hsplit.at_ hk hf ho (.between hfs hfh hfl fun c' hc' =>
      I.weaken (by omega) (hz ▸ hengine c' hc'))
  have hbody {f : Frames} {z : L.State} {l k : ℕ} (hk : f.kind = kind)
      (hf : f.flags = decFlags) (ho : f.owed = none) (hfs : f.state = .body)
      (hfh : f.held = []) (hz : I.At (I.spare + if k = 0 then l else l + 2) n z k 0)
      (hlt : k < n.code.length) :
      FramedAt I l kind decFlags fs tail ⟨z, f⟩ ((frameCodes pre).length + (c.code.length + k))
        ((frameTexts pre).length + c.text.length + 0) := by
    rw [← Nat.add_assoc, ← frameCodes_next, ← frameTexts_next]
    exact hnext.at_ hk hf ho
      (.body hfs hfh hz fun hend => by have := hend.1; omega)
  unfold frameTurn
  rw [if_pos (by simp [hs])]
  unfold framesBetween
  rw [hs]
  dsimp only
  rw [hflags, if_neg hconcat]
  have hmeasure : framedMeasure (s, w) = 2 * (w.input.length + w.room) + 1 := by
    simp [framedMeasure, hs]
  by_cases hnil : s.frames.held = []
  · rw [hnil, List.length_nil, Nat.sub_zero, List.nil_append] at hbegun hmagic
    rw [hnil, List.length_nil] at hmode
    rw [if_pos hnil]
    by_cases hin : w.input = []
    · have hrun := hmode (by simp [hin])
      rw [if_pos hin, if_pos hrun]
      exact ⟨.hungry (.refl w) .nil
        ((hat s.frames s.dctx hkind hflags howed hs rfl hheld hshort).goes hm) (by simpa using hrun) hin fun h => h.elim, by simp⟩
    rw [if_neg hin, hkind, if_neg (by simp [hbegun])]
    by_cases hfour : (w.input.take 4).length = 4
    · rw [if_pos hfour]
      refine ⟨⟨0, [], .refl w, .nil, FramedAt.stays ?_⟩, ?_⟩
      · rw [hnil]
        exact hbody rfl rfl howed rfl rfl (hengine n hframe.valid) (Nat.zero_lt_of_lt hlong)
      · intro y hy
        cases hy
        rw [hmeasure]
        simp [framedMeasure]
    · have hlt : w.input.length < 4 := by
        rw [List.length_take] at hfour
        omega
      have hrun := hmode (by omega)
      have hlen : (w.input.take 4).length = w.input.length := by
        rw [List.length_take]
        omega
      rw [if_neg hfour, if_neg hrun]
      refine ⟨.hungry (.take (by rw [hlen])) .nil (FramedAt.goes hm ?_) (by simpa using hrun) ?_ fun h => h.elim,
        by simp⟩
      · rw [hnil, List.length_nil, Nat.add_zero, Nat.add_zero, Nat.add_assoc]
        refine hat _ s.dctx rfl rfl howed rfl rfl ?_ ?_
        · exact (hmagic.trans (List.take_prefix ..)).trans
            (by rw [framesCoding_cons_code]; exact List.prefix_append ..)
        · simp only
          omega
      · rw [Window.take_input, hlen, List.drop_length]
  · rw [if_neg hnil, hkind, extendHeld_eq hbegun]
    dsimp only
    have hread : min (4 - s.frames.held.length) w.input.length ≤ w.input.length := by omega
    have hlen : (s.frames.held ++ w.input.take (4 - s.frames.held.length)).length =
        s.frames.held.length + min (4 - s.frames.held.length) w.input.length := by simp
    by_cases hfour : (s.frames.held ++ w.input.take (4 - s.frames.held.length)).length = 4
    · rw [if_pos hfour]
      have heq : s.frames.held ++ w.input.take (4 - s.frames.held.length) = n.code.take 4 :=
        hmagic.eq_of_length (by rw [hfour, List.length_take]; omega)
      obtain ⟨z', hz, hz'⟩ := hfeed hframe (hengine n hframe.valid)
      rw [heq, hz]
      dsimp only
      refine ⟨⟨_, [], .take hread, .nil, FramedAt.goes (Nat.succ_le_succ hm) ?_⟩, ?_⟩
      · rw [Nat.add_assoc, Nat.add_assoc, ← hlen, hfour]
        exact hbody rfl rfl howed rfl rfl hz' hlong
      · intro y hy
        cases hy
        rw [hmeasure]
        simp only [framedMeasure, Window.take_input, List.length_drop, Window.take_room]
        simp only [reduceCtorEq, if_false]
        omega
    · have hfew : s.frames.held.length + w.input.length < 4 := by omega
      have hrun := hmode hfew
      rw [if_neg hfour, if_pos hrun]
      refine ⟨.hungry (.take hread) .nil (FramedAt.goes hm ?_) (by simpa using hrun) ?_ fun h => h.elim, by simp⟩
      · rw [Nat.add_assoc, Nat.add_assoc, ← hlen, List.length_nil, Nat.add_zero]
        refine hat _ s.dctx rfl rfl howed rfl rfl ?_ ?_
        · exact (hmagic.trans (List.take_prefix ..)).trans
            (by rw [framesCoding_cons_code]; exact List.prefix_append ..)
        · simp only
          omega
      · rw [Window.take_input, List.drop_eq_nil_iff]
        omega

/-- A turn after the last frame, when nothing follows it. -/
theorem end_carries (hm : m ≤ 1) (hsplit : FrameSplit kind Valid decFlags fs pre c [])
    (hkind : s.frames.kind = kind) (hflags : s.frames.flags = decFlags)
    (howed : s.frames.owed = none) (hs : s.frames.state = .between)
    (hheld : s.frames.held = []) (hengine : ∀ c', Valid c' → I.At (I.spare + (m + 1)) c' s.dctx 0 0)
    (hx : (framesCoding fs []).Shows ((frameCodes pre).length + (c.code.length + 0)) w.input
      (mode = .finish)) :
    FramesCarry I m kind decFlags fs [] ((frameCodes pre).length + (c.code.length + 0))
        ((frameTexts pre).length + c.text.length) w mode (frameTurn fail feed mode s w) ∧
      ∀ y, frameTurn fail feed mode s w = .inl y → framedMeasure y < framedMeasure (s, w) := by
  have hcode := hsplit.code_length []
  have htext := hsplit.text_length
  have hnil : w.input = [] := hx.eq_nil (by rw [hcode]; simp)
  have hend (s' : FramedState L) : FramesCarry I m kind decFlags fs []
      ((frameCodes pre).length + (c.code.length + 0)) ((frameTexts pre).length + c.text.length) w
      mode (.inr (.streamEnd, s', w)) :=
    .ended (.refl w) .nil (by rw [hcode]; simp) (by rw [framesCoding_text, htext]; simp)
  unfold frameTurn
  rw [if_pos (by simp [hs])]
  unfold framesBetween
  rw [hs]
  dsimp only
  rw [hflags, if_pos hheld, if_pos hnil]
  by_cases hconcat : decFlags &&& decConcatMembers = 0
  · rw [if_pos hconcat]
    exact ⟨hend _, by simp⟩
  rw [if_neg hconcat]
  by_cases hmode : mode = .finish
  · rw [if_neg (by simpa using hmode)]
    exact ⟨hend _, by simp⟩
  · rw [if_pos hmode]
    have hat : FramedAt I (m + 1) kind decFlags fs [] s _ _ := hsplit.at_ hkind hflags howed
      (.between hs (by simp [hheld]) (by simp [hheld]) hengine)
    rw [hheld, List.length_nil] at hat
    exact ⟨.hungry (.refl w) .nil ((hat.weaken (by omega)).goes hm) (by simpa using hmode) hnil
      fun h => h.elim, by simp⟩

end Zukomp
