import Zukomp.Core.Drain
import Zukomp.Frames.Classify

/-! # When a framed decoder that asks for input is drained

With no room and no input a library that did not move may be waiting for either, and before
`ZU_FINISH` the framed decoders ask for input. So only a request that leaves room in the window
tells that the library holds nothing back.
-/

namespace Zukomp

open Library

variable {ε : Type} {L : FrameLib ε} {fail : ε → Status}
  {feed : L.State → List UInt8 → Status × L.State} {s : FramedState L} {w : Window} {mode : Flush}

/-! ## Within the window -/

theorem extendHeld_le (kind : FramesKind) (held input : List UInt8) :
    (extendHeld kind held input).2.2 ≤ input.length := by
  induction input generalizing held with
  | nil => exact le_rfl
  | cons b rest ih =>
    unfold extendHeld
    split_ifs
    · exact Nat.succ_le_succ (ih (held ++ [b]))
    · exact Nat.zero_le _
    · exact Nat.zero_le _

theorem framesBetween_advances (feed : L.State → List UInt8 → Status × L.State) (f : Frames)
    (z : L.State) (w : Window) (mode : Flush) :
    Window.Advances w (framesBetween feed f z w mode).2.2.2 := by
  have hstay : Window.Advances w w := .refl w
  have hheld : Window.Advances w (w.take (extendHeld f.kind f.held w.input).2.2) :=
    ⟨_, _, .take (extendHeld_le f.kind f.held w.input)⟩
  have hmagic : Window.Advances w (w.take (w.input.take 4).length) :=
    ⟨_, _, .take (by simp)⟩
  unfold framesBetween
  split
  · exact hstay
  · exact hstay
  · by_cases hconcat : f.flags &&& decConcatMembers = 0
    · rw [if_pos hconcat]
      exact hstay
    rw [if_neg hconcat]
    by_cases hnone : f.held = []
    · rw [if_pos hnone]
      dsimp only
      split_ifs
      all_goals first
        | exact hstay
        | exact hmagic
    rw [if_neg hnone]
    split
    · next heq => rwa [heq] at hheld
    · next held n heq =>
      rw [heq] at hheld
      by_cases hfour : held.length = 4
      · rw [if_pos hfour]
        split <;> exact hheld
      · rw [if_neg hfour]
        split_ifs <;> exact hheld

theorem framedStep_advances (fail : ε → Status) (feed : L.State → List UInt8 → Status × L.State)
    (mode : Flush) (x : FramedState L × Window) :
    Turn (fun y => Window.Advances x.2 y.2) (fun r => Window.Advances x.2 r.2.2)
      (framedStep fail feed mode x) := by
  obtain ⟨s, w⟩ := x
  have hturn (s : FramedState L) (w : Window) :
      Turn (fun y => Window.Advances w y.2) (fun r => Window.Advances w r.2.2)
        (frameTurn fail feed mode s w) := by
    unfold frameTurn
    by_cases hbody : s.frames.state ≠ .body
    · rw [if_pos hbody]
      have hbetween := framesBetween_advances feed s.frames s.dctx w mode
      split
      · next heq => rwa [heq] at hbetween
      · next heq => rwa [heq] at hbetween
    · rw [if_neg hbody]
      have hcall : Window.Advances w ((w.take (L.decompress s.dctx w.input w.room).used).put
          (L.decompress s.dctx w.input w.room).out) :=
        ⟨_, _, L.used_le s.dctx w.input w.room, L.out_le s.dctx w.input w.room, rfl⟩
      dsimp only
      split
      · exact .refl w
      · exact hcall
      · split_ifs
        · split <;> exact hcall
        · exact hcall
  unfold framedStep framesPay
  dsimp only
  cases s.frames.owed with
  | none => exact hturn _ w
  | some b =>
    dsimp only
    by_cases hroom : w.room = 0
    · rw [if_pos hroom]
      exact Window.Advances.refl w
    · rw [if_neg hroom]
      have hpaid : Window.Advances w (w.put [b]) :=
        ⟨_, _, .put (Nat.one_le_iff_ne_zero.mpr hroom)⟩
      exact (hturn _ (w.put [b])).mono (fun _ => hpaid.trans) (fun _ => hpaid.trans)

theorem framedProcess_advances (fail : ε → Status)
    (feed : L.State → List UInt8 → Status × L.State) (s : FramedState L) (w : Window)
    (mode : Flush) : Window.Advances w (framedProcess fail feed s w mode).2.2 :=
  runLoop_keeps (fun x : FramedState L × Window => Window.Advances w x.2)
    (fun r : Status × FramedState L × Window => Window.Advances w r.2.2)
    (fun x hx => (framedStep_advances fail feed mode x).mono (fun _ => hx.trans) (fun _ => hx.trans))
    (fun _ hx => hx) (.refl w) _

/-! ## Quiet decoders -/

/-- What a library is assumed to hold back: decoded bytes that it writes as soon as it has room,
and without input nothing else. -/
structure FrameLib.Drains (L : FrameLib ε) where
  Pending : L.State → Prop
  idle : ∀ {z} room, ¬ Pending z →
    (L.decompress z [] room).out = [] ∧ ¬ Pending (L.decompress z [] room).state
  writes : ∀ {z room}, 0 < room → Pending z → (L.decompress z [] room).result = .more →
    (L.decompress z [] room).out ≠ []

/-- The reference library holds back what it had no room for. -/
def refUnframeDrains (c : Progressive UInt8) (hready : c.ready 0 = 0) (other : ε) :
    (refUnframe c other).Drains where
  Pending z := c.Holds z.read z.written
  idle := by
    intro (z : RefUnframe) room hidle
    change (refUnframeStep c other z [] room).out = [] ∧
      ¬ c.Holds (refUnframeStep c other z [] room).state.read
        (refUnframeStep c other z [] room).state.written
    unfold refUnframeStep
    simp only [c.serve_idle hidle, List.take_zero, ne_eq, not_true_eq_false, if_false,
      List.length_nil, Nat.add_zero]
    split_ifs
    · exact ⟨rfl, fun h => by simp [Progressive.Holds, hready] at h⟩
    · exact ⟨rfl, hidle⟩
  writes := by
    intro (z : RefUnframe) room hroom hpending _
    change (refUnframeStep c other z [] room).out ≠ []
    have hout := c.serve_holds hpending hroom
    unfold refUnframeStep
    simp only [c.serve_nil, List.take_zero, ne_eq, not_true_eq_false, if_false] at hout ⊢
    split_ifs <;> exact hout

/-- A framed decoder that has nothing to write until it reads: no owed byte, no magic it holds
whole, and no decoded bytes in the library. -/
structure FramedQuiet (D : L.Drains) (s : FramedState L) : Prop where
  owed : s.frames.owed = none
  held : s.frames.state = .between → s.frames.held.length ≠ 4
  body : s.frames.state = .body → ¬ D.Pending s.dctx

variable {D : L.Drains}

variable (feed) in
theorem framesBetween_rests {f : Frames} {z : L.State} (hbody : f.state ≠ .body)
    (howed : f.owed = none) (hheld : f.state = .between → f.held.length ≠ 4)
    (hw : w.input = []) (hmode : mode ≠ .finish) :
    (framesBetween feed f z w mode).1 ≠ .ok ∧
      FramedQuiet D ⟨(framesBetween feed f z w mode).2.2.1, (framesBetween feed f z w mode).2.1⟩ ∧
      (framesBetween feed f z w mode).2.2.2 = w := by
  have hdone : FramedQuiet D ⟨z, { f with state := .done }⟩ := ⟨howed, by simp, by simp⟩
  unfold framesBetween
  cases hstate : f.state with
  | body => exact absurd hstate hbody
  | done => exact ⟨by simp, ⟨howed, by simp [hstate], by simp [hstate]⟩, rfl⟩
  | between =>
    have hquiet : FramedQuiet D ⟨z, f⟩ := ⟨howed, hheld, by simp [hstate]⟩
    dsimp only
    by_cases hconcat : f.flags &&& decConcatMembers = 0
    · rw [if_pos hconcat]
      exact ⟨by simp, hdone, rfl⟩
    rw [if_neg hconcat]
    by_cases hnone : f.held = []
    · rw [if_pos hnone, if_pos hw, if_pos hmode]
      exact ⟨by simp, hquiet, rfl⟩
    · rw [if_neg hnone, hw]
      simp only [extendHeld]
      rw [if_neg (hheld hstate), if_pos hmode]
      exact ⟨by simp, ⟨howed, fun _ => hheld hstate, by simp⟩, Window.take_zero w⟩

/-- With nothing to read, a turn of a quiet decoder writes nothing. -/
theorem framedStep_rests (fail : ε → Status) (feed : L.State → List UInt8 → Status × L.State)
    (hq : FramedQuiet D s) (hw : w.input = []) (hmode : mode ≠ .finish) :
    Turn (fun y => FramedQuiet D y.1 ∧ y.2 = w) (fun r => FramedQuiet D r.2.1 ∧ r.2.2 = w)
      (framedStep fail feed mode (s, w)) := by
  obtain ⟨howed, hheld, hidle⟩ := hq
  unfold framedStep framesPay
  rw [howed]
  dsimp only
  unfold frameTurn
  by_cases hbody : s.frames.state ≠ .body
  · rw [if_pos hbody]
    obtain ⟨hne, hquiet, hsame⟩ := framesBetween_rests feed (z := s.dctx) (D := D) hbody howed hheld hw
      hmode
    split
    · next heq =>
      rw [heq] at hne
      exact absurd rfl hne
    · next heq =>
      rw [heq] at hquiet hsame
      exact ⟨hquiet, hsame⟩
  · rw [if_neg hbody]
    have hbody : s.frames.state = .body := not_not.mp hbody
    obtain ⟨hout, hnext⟩ := D.idle w.room (hidle hbody)
    have hused : (L.decompress s.dctx [] w.room).used = 0 :=
      Nat.le_zero.mp (L.used_le s.dctx [] w.room)
    have hquiet : FramedQuiet D ⟨(L.decompress s.dctx [] w.room).state, s.frames⟩ :=
      ⟨howed, hheld, fun _ => hnext⟩
    dsimp only
    rw [hw, hused, hout, Window.take_zero, Window.put_nil]
    split
    · exact ⟨hquiet, rfl⟩
    · exact ⟨⟨howed, by simp [framesEnded], by simp [framesEnded]⟩, rfl⟩
    · have hstalled : framesStalled (frameProbe fail) s.frames (L.decompress s.dctx [] w.room).state
          ([] : List UInt8).length w.room mode = (.needInput, s.frames, (L.decompress s.dctx [] w.room).state) := by
        simp [framesStalled, hmode]
      rw [if_pos ⟨rfl, rfl⟩, hstalled]
      exact ⟨hquiet, rfl⟩

theorem framedProcess_rests (fail : ε → Status) (feed : L.State → List UInt8 → Status × L.State)
    (hq : FramedQuiet D s) (hw : w.input = []) (hmode : mode ≠ .finish) :
    FramedQuiet D (framedProcess fail feed s w mode).2.1 ∧
      (framedProcess fail feed s w mode).2.2 = w := by
  refine runLoop_keeps (fun x : FramedState L × Window => FramedQuiet D x.1 ∧ x.2 = w)
    (fun r : Status × FramedState L × Window => FramedQuiet D r.2.1 ∧ r.2.2 = w) ?_
    (fun _ hx => hx) ⟨hq, rfl⟩ _
  rintro ⟨s, w'⟩ ⟨hq, rfl⟩
  exact framedStep_rests fail feed hq hw hmode

/-! ## Turns that ask for input -/

/-- Between frames the prober holds less than a magic when it asks for more of it. -/
theorem framesBetween_asks (mode : Flush) (hfeed : ∀ z p, (feed z p).1 ≠ .needInput) {f : Frames} {z : L.State}
    (hbody : f.state ≠ .body) (howed : f.owed = none)
    (hask : (framesBetween feed f z w mode).1 = .needInput) :
    FramedQuiet D ⟨(framesBetween feed f z w mode).2.2.1, (framesBetween feed f z w mode).2.1⟩ := by
  unfold framesBetween at hask ⊢
  cases hstate : f.state with
  | body => exact absurd hstate hbody
  | done => simp [hstate] at hask
  | between =>
    simp only [hstate] at hask ⊢
    by_cases hconcat : f.flags &&& decConcatMembers = 0
    · rw [if_pos hconcat] at hask
      cases hask
    rw [if_neg hconcat] at hask ⊢
    by_cases hnone : f.held = []
    · rw [if_pos hnone] at hask ⊢
      split_ifs at hask ⊢ with hinput hmode hprefix hfour hfinish
      · exact ⟨howed, by simp [hnone], by simp [hstate]⟩
      · exact ⟨howed, fun _ => hfour, by simp⟩
    · rw [if_neg hnone] at hask ⊢
      generalize extendHeld f.kind f.held w.input = r at hask ⊢
      obtain ⟨ok, held, n⟩ := r
      cases ok with
      | false => cases hask
      | true =>
        dsimp only at hask ⊢
        by_cases hfour : held.length = 4
        · rw [if_pos hfour] at hask
          have hfed := hfeed z held
          split at hask
          · cases hask
          · next heq =>
            rw [heq] at hfed
            exact absurd hask hfed
        · rw [if_neg hfour] at hask ⊢
          split_ifs at hask ⊢
          exact ⟨howed, fun _ => hfour, by simp⟩

/-- A turn that asks for input with room left leaves the decoder quiet. -/
theorem framedStep_asks (D : L.Drains) (hfail : ∀ code, fail code ≠ .needInput)
    (hfeed : ∀ z p, (feed z p).1 ≠ .needInput) (x : FramedState L × Window) :
    Turn (fun _ => True) (fun r => r.1 = .needInput → r.2.2.room ≠ 0 → FramedQuiet D r.2.1)
      (framedStep fail feed mode x) := by
  obtain ⟨s, w⟩ := x
  unfold framedStep
  cases hpay : framesPay s.frames w with
  | none => exact fun h => by cases h
  | some y =>
    obtain ⟨f, w⟩ := y
    have howed : f.owed = none := by
      unfold framesPay at hpay
      split at hpay
      · next hnone =>
        cases hpay
        exact hnone
      · split_ifs at hpay
        cases hpay
        rfl
    dsimp only
    unfold frameTurn
    dsimp only
    by_cases hbody : f.state ≠ .body
    · rw [if_pos hbody]
      split
      · trivial
      · next heq =>
        have hquiet := framesBetween_asks mode (D := D) (w := w) (z := s.dctx) hfeed hbody howed
        rw [heq] at hquiet
        exact fun hask _ => hquiet hask
    · rw [if_neg hbody]
      have hbody : f.state = .body := not_not.mp hbody
      split
      · exact fun hask => absurd hask (hfail _)
      · trivial
      · next hmore =>
        by_cases hstill : (L.decompress s.dctx w.input w.room).used = 0 ∧
            (L.decompress s.dctx w.input w.room).out = []
        · rw [if_pos hstill, hstill.1, hstill.2, Window.take_zero, Window.put_nil]
          split
          · trivial
          · next heq =>
            intro (hask : _ = Status.needInput) (hroom : w.room ≠ 0)
            unfold framesStalled at heq
            rw [if_neg hroom] at heq
            by_cases hw : w.input = []
            · rw [if_pos (by simp [hw])] at heq
              cases heq
              rw [hw] at hmore hstill ⊢
              have hidle : ¬ D.Pending s.dctx := fun hpending =>
                D.writes (Nat.pos_of_ne_zero hroom) hpending hmore hstill.2
              exact ⟨howed, by simp [hbody], fun _ => (D.idle w.room hidle).2⟩
            · rw [if_neg (by simp [hw])] at heq
              cases heq
              cases hask
        · rw [if_neg hstill]
          trivial

theorem framedProcess_asks (D : L.Drains) (hfail : ∀ code, fail code ≠ .needInput)
    (hfeed : ∀ z p, (feed z p).1 ≠ .needInput) (s : FramedState L) (w : Window) (mode : Flush)
    (hask : (framedProcess fail feed s w mode).1 = .needInput)
    (hroom : (framedProcess fail feed s w mode).2.2.room ≠ 0) :
    FramedQuiet D (framedProcess fail feed s w mode).2.1 :=
  runLoop_keeps (fun _ : FramedState L × Window => True)
    (fun r : Status × FramedState L × Window =>
      r.1 = .needInput → r.2.2.room ≠ 0 → FramedQuiet D r.2.1)
    (fun x _ => framedStep_asks D hfail hfeed x) (fun _ _ h => by cases h) trivial _ hask hroom

/-! ## The two decoders -/

def zstdDrain {Z : Zstd} (D : Z.toFrameLib.Drains) : DecoderDrain (zstdCodec Z) where
  process := zstdDecoderProcess
  lifted := zstdCodec_decodes Z
  advances (s : ZstdDecoder Z) w mode := framedProcess_advances _ _ s.toFramedState w mode
  Inv _ := True
  Quiet := fun s : ZstdDecoder Z => FramedQuiet D s.toFramedState
  Tells room := room ≠ 0
  inv_new _ := trivial
  inv_process _ _ _ := trivial
  inv_reset _ _ _ := trivial
  quiet := by
    intro (s : ZstdDecoder Z) w mode _ hq hw hmode
    obtain ⟨hquiet, hsame⟩ := framedProcess_rests (zstdError false s.maxOutput)
      (zstdFeedHeld s.maxOutput) hq hw hmode
    exact ⟨congrArg Window.written hsame, hquiet⟩
  asks := by
    intro (s : ZstdDecoder Z) w _ hask hroom
    have hfail := zstdError_ne_needInput false s.maxOutput
    exact framedProcess_asks D hfail (feedHeld_ne_needInput hfail) s.toFramedState w .run hask hroom

def lz4FrameDrain {F : Lz4f} (D : F.toFrameLib.Drains) : DecoderDrain (lz4FrameCodec F) where
  process := lz4fDecoderProcess
  lifted := lz4FrameCodec_decodes F
  advances s w mode := framedProcess_advances (lz4fError false) lz4fFeedHeld s w mode
  Inv _ := True
  Quiet := fun s : Lz4fDecoder F => FramedQuiet D s
  Tells room := room ≠ 0
  inv_new _ := trivial
  inv_process _ _ _ := trivial
  inv_reset _ _ _ := trivial
  quiet := by
    intro (s : Lz4fDecoder F) w mode _ hq hw hmode
    obtain ⟨hquiet, hsame⟩ := framedProcess_rests (lz4fError false) lz4fFeedHeld hq hw hmode
    exact ⟨congrArg Window.written hsame, hquiet⟩
  asks := by
    intro (s : Lz4fDecoder F) w _ hask hroom
    have hfail := lz4fError_ne_needInput false
    exact framedProcess_asks D hfail (feedHeld_ne_needInput hfail) s w .run hask hroom

end Zukomp
