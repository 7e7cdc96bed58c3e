import Zukomp.Core.Limits
import Zukomp.Deflate.Process

/-! # Every turn of the DEFLATE loop makes progress

A turn stays within the window it is given, and a turn that goes on either moves a byte
or reaches a state of lower rank. So `deflate_process` returns, and its vtables advance
the cursors only within the caller's buffer.
-/

namespace Zukomp

open Library

variable {E : MzStream}

/-- What a turn does to the window and the measure, whatever the state. -/
def Progresses (x : DeflateState E × Window) : Next E → Prop :=
  Turn (fun y => Window.Advances x.2 y.2 ∧ deflateMeasure y < deflateMeasure x)
    (fun r => Window.Advances x.2 r.2.2)

theorem progresses_rank {s s' : DeflateState E} {w : Window} (h : stateRank s' < stateRank s) :
    Progresses (s, w) (.inl (s', w)) :=
  ⟨.refl w, by simp only [deflateMeasure]; omega⟩

theorem stateRank_le (s : DeflateState E) : stateRank s ≤ 4 := by
  unfold stateRank
  split <;> first | split_ifs <;> omega | omega

theorem progresses_take {s s' : DeflateState E} {w : Window} (h : w.input ≠ []) :
    Progresses (s, w) (.inl (s', w.take 1)) := by
  have hlen := List.length_pos_iff.mpr h
  have hrank := stateRank_le s'
  refine ⟨⟨1, [], .take hlen⟩, ?_⟩
  simp only [deflateMeasure, Window.take_input, Window.take_room, List.length_drop]
  omega

theorem progresses_put {s s' : DeflateState E} {w : Window} {b : UInt8} (h : w.room ≠ 0) :
    Progresses (s, w) (.inl (s', w.put [b])) := by
  have hrank := stateRank_le s'
  refine ⟨⟨0, [b], .put (by simp only [List.length_singleton]; omega)⟩, ?_⟩
  simp only [deflateMeasure, Window.put_input, Window.put_room, List.length_singleton]
  omega

theorem progresses_return {s s' : DeflateState E} {w : Window} {st : Status} :
    Progresses (s, w) (.inr (st, s', w)) := Window.Advances.refl w

theorem progresses_return_take {s s' : DeflateState E} {w : Window} {st : Status}
    (h : w.input ≠ []) : Progresses (s, w) (.inr (st, s', w.take 1)) :=
  ⟨1, [], .take (List.length_pos_iff.mpr h)⟩

theorem headerStep_progresses {s : DeflateState E} (hs : s.state = .header) (w : Window)
    (mode : Flush) : Progresses (s, w) (headerStep s w mode) := by
  unfold headerStep
  split_ifs with henc hpos hroom hwrap hpos hcheck
  · exact progresses_return
  · exact progresses_put hroom
  · exact progresses_rank (by simp [stateRank, hs, henc])
  · cases hw : w.input with
    | nil => exact progresses_return
    | cons b rest =>
      have hne : w.input ≠ [] := by simp [hw]
      simp only
      split
      · exact progresses_take hne
      · exact progresses_take hne
      · exact progresses_return_take hne
  · cases hw : w.input with
    | nil => exact progresses_return
    | cons b rest => exact progresses_take (by simp [hw])
  · exact progresses_return
  · exact progresses_rank (by simp [stateRank, hs, hwrap])

theorem trailerStep_progresses {s : DeflateState E} (hs : s.state = .trailer) (w : Window)
    (mode : Flush) : Progresses (s, w) (trailerStep s w mode) := by
  unfold trailerStep
  split_ifs with henc hpos hroom hpos hcheck
  · exact progresses_return
  · exact progresses_put hroom
  · exact progresses_return
  · cases hw : w.input with
    | nil => exact progresses_return
    | cons b rest => exact progresses_take (by simp [hw])
  · exact progresses_return
  · exact progresses_rank (by simp [stateRank, hs])

theorem engineCall_moved (s : DeflateState E) (w : Window) (mode : Flush) :
    w.Moved (engineCall s w mode).used (engineCall s w mode).out
      ((w.take (engineCall s w mode).used).put (engineCall s w mode).out) := by
  have hused := E.used_le s.mz (w.input.take mzClamp) (min w.room mzClamp) (engineFlush s mode)
  have hout := E.out_le s.mz (w.input.take mzClamp) (min w.room mzClamp) (engineFlush s mode)
  simp only [List.length_take] at hused
  exact ⟨by simp only [engineCall]; omega, by simp only [engineCall]; omega, rfl⟩

@[simp] theorem afterEngine_state (s : DeflateState E) (w : Window) (r : MzStep E.State) :
    (afterEngine s w r).state = s.state := by
  unfold afterEngine
  dsimp only
  split_ifs <;> rfl

@[simp] theorem afterEngine_wrap (s : DeflateState E) (w : Window) (r : MzStep E.State) :
    (afterEngine s w r).wrap = s.wrap := by
  unfold afterEngine
  dsimp only
  split_ifs <;> rfl

@[simp] theorem afterEngine_encoder (s : DeflateState E) (w : Window) (r : MzStep E.State) :
    (afterEngine s w r).encoder = s.encoder := by
  unfold afterEngine
  dsimp only
  split_ifs <;> rfl

@[simp] theorem afterEngine_mz (s : DeflateState E) (w : Window) (r : MzStep E.State) :
    (afterEngine s w r).mz = r.state := by
  unfold afterEngine
  dsimp only
  split_ifs <;> rfl

@[simp] theorem afterEngine_mzCalled (s : DeflateState E) (w : Window) (r : MzStep E.State) :
    (afterEngine s w r).mzCalled = true := by
  unfold afterEngine
  dsimp only
  split_ifs <;> rfl

@[simp] theorem afterEngine_probeMagic (s : DeflateState E) (w : Window) (r : MzStep E.State) :
    (afterEngine s w r).probeMagic = s.probeMagic := by
  unfold afterEngine
  dsimp only
  split_ifs <;> rfl

theorem bodyStep_progresses {s : DeflateState E} (hs : s.state = .body) (w : Window)
    (mode : Flush) : Progresses (s, w) (bodyStep s w mode) := by
  have hm := engineCall_moved s w mode
  unfold bodyStep
  split_ifs with hroom
  · exact progresses_return
  dsimp only
  have hadv : Window.Advances w
      ((w.take (engineCall s w mode).used).put (engineCall s w mode).out) := ⟨_, _, hm⟩
  have hread := hm.read_le
  have hwrite := hm.write_le
  split_ifs with hend hwrap hbad hidle
  · refine ⟨hadv, ?_⟩
    simp only [deflateMeasure, stateRank, hs, enterTrailer, Window.put_input, Window.put_room,
      Window.take_input, Window.take_room, List.length_drop]
    omega
  · exact hadv
  · exact hadv
  · exact hadv
  · refine ⟨hadv, ?_⟩
    have hmoved : 0 < (engineCall s w mode).used + (engineCall s w mode).out.length := by
      rcases Nat.eq_zero_or_pos (engineCall s w mode).used with hu | hu
      · have hne : (engineCall s w mode).out ≠ [] := fun ho => hidle ⟨hu, ho⟩
        have := List.length_pos_iff.mpr hne
        omega
      · omega
    simp only [deflateMeasure, stateRank, hs, afterEngine_state, Window.put_input,
      Window.put_room, Window.take_input, Window.take_room, List.length_drop]
    omega

/-- A decoder's reset restarts the wrapper, or fails with a stream error. -/
theorem deflateReset_decoder {s : DeflateState E} (henc : s.encoder = false) :
    (∃ mz, E.reset s.mz = (.ok, mz) ∧ deflateReset s levelDefault = (.ok, { s with
      mz := mz, mzCalled := false
      checksum := checksumInit s.wrap, uncompressed := 0, hdrPos := 0, tailPos := 0
      probeMagic := false, state := firstState s.wrap
      gz := if s.wrap = .gzip then gzipHeaderInit else s.gz })) ∨
    (∃ mz, E.reset s.mz = (.streamError, mz) ∧
      deflateReset s levelDefault = (.errInvalidData, { s with mz := mz })) := by
  have hst := E.reset_status s.mz
  unfold deflateReset
  rcases hr : E.reset s.mz with ⟨st, mz⟩
  rw [hr] at hst
  rcases hst with h | h <;> simp only at h <;> subst h
  · exact .inl ⟨mz, rfl, by simp [henc, writeHdr]⟩
  · exact .inr ⟨mz, rfl, by simp [henc, fromMz]⟩

theorem nextMember_progresses {s : DeflateState E} (hs : s.state = .memberEnd)
    (hc : concatenates s = true) (w : Window) (held : Bool) :
    Progresses (s, w) (nextMember s w held) := by
  simp only [concatenates, decide_eq_true_eq] at hc
  obtain ⟨hwrap, -, henc⟩ := hc
  unfold nextMember
  rcases deflateReset_decoder henc with ⟨mz, -, hr⟩ | ⟨mz, -, hr⟩
  · rw [hr]
    dsimp only
    split_ifs
    · split
      · exact progresses_rank (by simp [stateRank, hs, hwrap, firstState, henc])
      · exact progresses_return
    · exact progresses_rank (by simp [stateRank, hs, hwrap, firstState, henc])
  · rw [hr]
    exact progresses_return

theorem memberEndStep_progresses {s : DeflateState E} (hs : s.state = .memberEnd) (w : Window)
    (mode : Flush) : Progresses (s, w) (memberEndStep s w mode) := by
  have hfinish : Progresses (s, w) (finishMember s w) := by
    unfold finishMember
    dsimp only
    split_ifs <;> exact progresses_return
  unfold memberEndStep
  cases hw : w.input with
  | nil =>
    dsimp only
    split_ifs
    · exact progresses_return
    · exact hfinish
  | cons b rest =>
    have hne : w.input ≠ [] := by simp [hw]
    cases rest with
    | nil =>
      dsimp only
      split_ifs with hc hprobe hb hmode hb
      · exact hfinish
      · exact progresses_return
      · exact progresses_return
      · exact progresses_return_take hne
      · exact progresses_return
      · exact nextMember_progresses hs (by simpa using hc) w true
    | cons c rest =>
      dsimp only
      split_ifs with hc hprobe hb hmagic hb
      · exact hfinish
      · exact progresses_return
      · exact progresses_return
      · exact nextMember_progresses hs (by simpa using hc) w false
      · exact progresses_return
      · exact nextMember_progresses hs (by simpa using hc) w true

/-- Every turn stays within its window, and one that goes on decreases the measure. -/
theorem deflateStep_progresses (mode : Flush) (x : DeflateState E × Window) :
    Progresses x (deflateStep mode x) := by
  obtain ⟨s, w⟩ := x
  unfold deflateStep
  cases hs : s.state with
  | done => exact progresses_return
  | header => exact headerStep_progresses hs w mode
  | body => exact bodyStep_progresses hs w mode
  | memberEnd => exact memberEndStep_progresses hs w mode
  | trailer => exact trailerStep_progresses hs w mode

theorem deflateProcess_returns (s : DeflateState E) (w : Window) (mode : Flush) :
    Returns (deflateStep mode) (s, w) (deflateProcess s w mode) :=
  returns_runLoop (fun _ => True) deflateMeasure
    (fun x _ => (deflateStep_progresses mode x).mono (fun _ h => ⟨trivial, h.2⟩)
      fun _ _ => trivial) trivial (Nat.lt_succ_self _)

theorem deflateProcess_keeps {s : DeflateState E} {w : Window} {mode : Flush}
    (Inv : DeflateState E × Window → Prop)
    (Post : Status × DeflateState E × Window → Prop)
    (hturn : ∀ x, Inv x → Turn Inv Post (deflateStep mode x)) (h : Inv (s, w)) :
    Post (deflateProcess s w mode) := by
  obtain ⟨x, hx, hr⟩ := deflateProcess_returns s w mode
  have hinv := hx.invariant Inv (fun y z hy hstep => by
    have := hturn y hy
    rwa [hstep] at this) h
  have := hturn x hinv
  rwa [hr] at this

theorem deflateStep_reaches_le {mode : Flush} {x y : DeflateState E × Window}
    (h : Reaches (deflateStep mode) x y) : y.2.input.length ≤ x.2.input.length := by
  refine h.invariant (fun y => y.2.input.length ≤ x.2.input.length) (fun y z hy hstep => ?_) le_rfl
  have hprog := deflateStep_progresses mode y
  rw [hstep] at hprog
  obtain ⟨⟨n, o, hm⟩, -⟩ := hprog
  have hin : z.2.input = y.2.input.drop n := congrArg Window.input hm.eq
  rw [hin, List.length_drop]
  omega

theorem deflateProcess_advances (s : DeflateState E) (w : Window) (mode : Flush) :
    Window.Advances w (deflateProcess s w mode).2.2 :=
  runLoop_rule (fun x : DeflateState E × Window => Window.Advances w x.2)
    (fun r : Status × DeflateState E × Window => Window.Advances w r.2.2) deflateMeasure
    (fun x hx => (deflateStep_progresses mode x).mono (fun _ h => ⟨hx.trans h.1, h.2⟩)
      fun _ h => hx.trans h) (.refl w) (Nat.lt_succ_self _)

/-- The decoders of the family only advance the cursors, within the window shown. -/
theorem deflateVtable_honest (M : Miniz) (codec : CodecId) (wrap : WrapKind) :
    (deflateVtable M codec wrap).Honest := fun s buf mode hsrc hdst =>
  buf.advances_advance (deflateProcess_advances s buf.window mode) hsrc hdst

end Zukomp
