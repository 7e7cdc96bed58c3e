import Zukomp.Core.Encoded
import Zukomp.Frames.Decode
import Zukomp.Frames.Encoders
import Zukomp.Frames.Window

/-! # What the framed encoders write

A payload that comes in one slice goes to the library in order, and what the caller is given is what
the library gives: one frame of the payload.
-/

namespace Zukomp

open Library

/-! ## zstd -/

section Zstd

variable {Z : Zstd} {Frame : ℕ → Coding UInt8 → Prop}

/-- The window that libzstd asks for where it knows the size of its payload. -/
def zstdFrameWindow (n : ℕ) : ℕ := max (min n zstdLibraryWindow) (2 ^ 10)

/-- A frame of the payload `x`, and none to be skipped. -/
def ZstdWrote (Frame : ℕ → Coding UInt8 → Prop) (x b : List UInt8) : Prop :=
  ∃ f, (∀ W, zstdFrameWindow x.length ≤ W → FramesKind.zstd.ValidFrame (Frame W) f) ∧
    f.text = x ∧ f.code = b ∧ FramesKind.zstd.magic <+: b

/-- What libzstd documents of a compressor that is told to end its frame from the first call on, with
all that is left of the payload `src` in every call: it writes a frame of it. -/
structure Zstd.Sends (Z : Zstd) (Frame : ℕ → Coding UInt8 → Prop) where
  Sent : Z.CCtx → List UInt8 → List UInt8 → List UInt8 → Prop
  Fresh : Z.CCtx → Prop
  create : ∀ {z}, Z.createCCtx = some z → Fresh z
  level : ∀ {z z' lv}, Z.setLevel z lv = some z' → Fresh z → Fresh z'
  checksum : ∀ {z z'}, Z.setChecksumFlag z = some z' → Fresh z → Fresh z'
  begins : ∀ {z}, Fresh z → ∀ src, Sent z src [] []
  goes : ∀ {z src x y input} (room : ℕ), Sent z src x y → x ++ input = src →
    ∀ {n}, (Z.compress z input room .eEnd).remaining = .ok n → n ≠ 0 →
      Sent (Z.compress z input room .eEnd).state src
        (x ++ input.take (Z.compress z input room .eEnd).used)
        (y ++ (Z.compress z input room .eEnd).out)
  ends : ∀ {z src x y input} (room : ℕ), Sent z src x y → x ++ input = src →
    (Z.compress z input room .eEnd).remaining = .ok 0 →
      (Z.compress z input room .eEnd).used = input.length ∧
        ZstdWrote Frame src (y ++ (Z.compress z input room .eEnd).out)

variable (S : Z.Sends Frame)

/-- An encoder of one frame. -/
def ZstdSending (s : ZstdEncoder Z) (src x y : List UInt8) : Prop :=
  s.done = false ∧ S.Sent s.cctx src x y

/-- Within a call that found the window at `w`. -/
def ZstdFollows (src x y : List UInt8) (w : Window) (a : ZstdEncoder Z × Window) : Prop :=
  ∃ u o, w.Moved u o a.2 ∧ ZstdSending S a.1 src (x ++ w.input.take u) (y ++ o)

theorem taken_append {src x : List UInt8} {w v : Window} {u : ℕ} {o : List UInt8}
    (hall : x ++ w.input = src) (hm : w.Moved u o v) (n : ℕ) :
    x ++ w.input.take u ++ v.input = src ∧
      x ++ w.input.take (u + n) = x ++ w.input.take u ++ v.input.take n := by
  have hinput : v.input = w.input.drop u := by
    rw [hm.eq]
    rfl
  rw [hinput, List.append_assoc, List.append_assoc, List.take_append_drop, ← List.take_add]
  exact ⟨hall, rfl⟩

/-- One call of the library. -/
theorem zstdEncoderStep_makes {src x y : List UInt8} {w : Window} (hall : x ++ w.input = src)
    {a : ZstdEncoder Z × Window} (h : ZstdFollows S src x y w a) :
    Turn (ZstdFollows S src x y w)
      (fun r => ∃ u o, Makes (v := zstdCodec Z) (ZstdSending S) (ZstdWrote Frame) src x y w r u o)
      (zstdEncoderStep .finish a) := by
  obtain ⟨s, v⟩ := a
  obtain ⟨u, o, hm, hdone, hsent⟩ := h
  dsimp only at hm hdone hsent
  obtain ⟨hleft, htake⟩ := taken_append hall hm (Z.compress s.cctx v.input v.room .eEnd).used
  have hgoes := fun n => @S.goes _ _ _ _ _ v.room hsent hleft n
  have hends := S.ends v.room hsent hleft
  have hcall : v.Moved (Z.compress s.cctx v.input v.room .eEnd).used
      (Z.compress s.cctx v.input v.room .eEnd).out _ :=
    ⟨Z.compress_used_le .., Z.compress_out_le .., rfl⟩
  have hmoved := hm.trans hcall
  unfold zstdEncoderStep
  dsimp only [zstdOp]
  generalize Z.compress s.cctx v.input v.room .eEnd = c at *
  rw [← htake, List.append_assoc y] at hgoes
  rw [List.append_assoc y] at hends
  cases hres : c.remaining with
  | error code =>
    have herr := (zstdError_encoder code).1
    refine ⟨u, o, hm.eq, fun hok => ?_, fun hend => ?_⟩
    · rw [show (zstdError true 0 code).isError = false from hok] at herr
      cases herr
    · rw [show zstdError true 0 code = .streamEnd from hend] at herr
      cases herr
  | ok n =>
    dsimp only
    by_cases hzero : n = 0
    · subst hzero
      rw [if_pos ⟨rfl, rfl⟩]
      obtain ⟨hused, hwrote⟩ := hends hres
      refine ⟨_, _, hmoved.eq, fun _ hne => absurd rfl hne, fun _ => ⟨?_, hwrote⟩⟩
      rw [htake, hused, List.take_length, hleft]
    · rw [if_neg (fun h => hzero h.2), if_neg (fun h => h.2.elim nofun hzero)]
      have hnext := hgoes n hres hzero
      split_ifs with hidle hroom
      · exact ⟨_, _, hmoved.eq, fun _ _ => ⟨hdone, hnext⟩, nofun⟩
      · exact ⟨_, _, hmoved.eq, nofun, nofun⟩
      · exact ⟨_, _, hmoved, hdone, hnext⟩

theorem zstdEncoderProcess_makes {s : ZstdEncoder Z} {src x y : List UInt8} (w : Window)
    (h : ZstdSending S s src x y) (hall : x ++ w.input = src) :
    ∃ u o, Makes (v := zstdCodec Z) (ZstdSending S) (ZstdWrote Frame) src x y w
      (zstdEncoderProcess s w .finish) u o := by
  have hstart : ZstdFollows S src x y w (s, w) :=
    ⟨0, [], .refl w, by rwa [List.take_zero, List.append_nil, List.append_nil]⟩
  unfold zstdEncoderProcess
  rw [if_neg (by simp [h.1])]
  refine runLoop_keeps (ZstdFollows S src x y w) _ (fun a ha => zstdEncoderStep_makes S hall ha)
    (fun a ha => ?_) hstart _
  obtain ⟨u, o, hm, -⟩ := ha
  exact ⟨u, o, hm.eq, nofun, nofun⟩

theorem zstdEncoderNew_sends {o : EncoderOpts} {s : ZstdEncoder Z} (h : zstdEncoderNew Z o = .ok s) :
    S.Fresh s.cctx ∧ s.done = false := by
  unfold zstdEncoderNew zstdLevel at h
  dsimp only at h
  cases hcreate : Z.createCCtx with
  | none => simp [hcreate] at h
  | some z =>
    rw [hcreate] at h
    dsimp only at h
    cases hlevel : Z.setLevel z (if o.level = levelDefault then zstdLevelDefault else o.level) with
    | none => simp [hlevel] at h
    | some z' =>
      rw [hlevel] at h
      dsimp only at h
      cases hflag : Z.setChecksumFlag z' with
      | none => simp [hflag] at h
      | some z'' =>
        rw [hflag] at h
        cases h
        exact ⟨S.checksum hflag (S.level hlevel (S.create hcreate)), rfl⟩

theorem zstdEncodes_frame (S : Z.Sends Frame) {lookup : CodecId → Option CodecVtable}
    {opts : EncoderOpts} {e : Encoder (zstdCodec Z)}
    (hnew : encoderNew lookup opts = .ok ⟨zstdCodec Z, e⟩) {n : ℕ} {src b : List UInt8}
    (h : Encoding.EncodesBy (OneSlice n) e src b) : ZstdWrote Frame src b := by
  obtain ⟨-, hstate, hopen⟩ := encoderNew_ok hnew
  obtain ⟨hfresh, hdone⟩ := zstdEncoderNew_sends S hstate
  exact encodesBy_made (zstdCodec_encodes Z) hopen (fun src _ => ⟨hdone, S.begins hfresh src⟩)
    (fun w h hall => zstdEncoderProcess_makes S w h hall) h

def zstdSummedA : Progressive UInt8 :=
  lateFrame [0x28, 0xB5, 0x2F, 0xFD, 0x24, 0x01, 0x09, 0x00, 0x00, 0x61, 0x5B, 0x6E, 0x8C, 0xA9]
    (by simp) [0x61] 14 le_rfl

/-- What the reference compressor has been told and has given of the frame of `src`. -/
def RefZstdWriter.Sent (z : RefZstdWriter) (src x y : List UInt8) : Prop :=
  (z = ⟨[], none⟩ ∧ x = [] ∧ y = []) ∨
    ∃ owed, z.owed = some owed ∧ x = src ∧ refZstdFrame src = some (y ++ owed)

end Zstd

/-! ## lz4-frame -/

section Lz4Frame

variable {F : Lz4f} {Frame : Coding UInt8 → Prop}

/-- A frame of the payload `x`, and none to be skipped. -/
def Lz4fWrote (Frame : Coding UInt8 → Prop) (x b : List UInt8) : Prop :=
  ∃ f, FramesKind.lz4.ValidFrame Frame f ∧ f.text = x ∧ f.code = b ∧
    FramesKind.lz4.magic <+: b

/-- What liblz4 documents of its frame functions: the calls from a frame's header to its end mark,
where none of them fails, write a frame of what has been handed over. -/
structure Lz4f.Sends (F : Lz4f) (Frame : Coding UInt8 → Prop) where
  Sent : F.Cctx → List UInt8 → List UInt8 → Prop
  begin : ∀ {z z' prefs header}, F.begin z prefs = (.ok header, z') → Sent z' [] header
  update : ∀ {z z' x y input out}, Sent z x y → F.update z input = (.ok out, z') →
    Sent z' (x ++ input) (y ++ out)
  finish : ∀ {z z' x y tail}, Sent z x y → F.finish z = (.ok tail, z') → Lz4fWrote Frame x (y ++ tail)

variable (S : F.Sends Frame)

/-- An encoder of one frame that has taken `x` of the payload `src` and given `y`. -/
inductive Lz4fSending (s : Lz4fEncoder F) (src x y : List UInt8) : Prop
  | fresh (started : s.started = false) (ended : s.ended = false) (done : s.done = false)
      (stage : s.stage = []) (taken : x = []) (given : y = [])
  | begun (started : s.started = true) (ended : s.ended = false) (done : s.done = false)
      (sent : S.Sent s.cctx x (y ++ s.stage))
  | ended (ended : s.ended = true) (taken : x = src) (wrote : Lz4fWrote Frame src (y ++ s.stage))

/-- Within a call that found the window at `w`. -/
def Lz4fMakes (src x y : List UInt8) (w : Window) (a : (Lz4fEncoder F × Bool) × Window) : Prop :=
  ∃ u o, w.Moved u o a.2 ∧ Lz4fSending S a.1.1 src (x ++ w.input.take u) (y ++ o)

theorem Lz4fSending.drained {s : Lz4fEncoder F} {src x y : List UInt8}
    (h : Lz4fSending S s src x y) (w : Window) :
    Lz4fSending S { s with stage := (lz4Drain s.stage w).1 } src x (y ++ s.stage.take w.room) := by
  have hsplit : y ++ s.stage.take w.room ++ s.stage.drop w.room = y ++ s.stage := by
    rw [List.append_assoc, List.take_append_drop]
  cases h with
  | fresh started ended done stage taken given =>
    refine .fresh started ended done ?_ taken ?_
    · change s.stage.drop w.room = []
      rw [stage, List.drop_nil]
    · rw [given, stage, List.take_nil, List.append_nil]
  | begun started ended done sent => exact .begun started ended done (hsplit ▸ sent)
  | ended ended taken wrote => exact .ended ended taken (hsplit ▸ wrote)

theorem lz4fStaged_error {src x y : List UInt8} {w v : Window} {s : Lz4fEncoder F} {flushed : Bool}
    {u : ℕ} {o : List UInt8} (hm : w.Moved u o v) (code : Lz4fError) :
    Turn (Lz4fMakes S src x y w)
      (fun r => ∃ u o, Makes (v := lz4FrameCodec F) (Lz4fSending S) (Lz4fWrote Frame) src x y w r u o)
      (lz4fStaged s flushed v (.error code)) := by
  have herr := lz4fError_isError code
  refine ⟨u, o, hm.eq, fun hok => ?_, fun hend => ?_⟩
  · rw [show (lz4fError true code).isError = false from hok] at herr
    cases herr
  · rw [show lz4fError true code = .streamEnd from hend] at herr
    cases herr

/-- One turn of the loop. -/
theorem lz4fEncoderStep_makes {src x y : List UInt8} {w : Window} (hall : x ++ w.input = src)
    {a : (Lz4fEncoder F × Bool) × Window} (h : Lz4fMakes S src x y w a) :
    Turn (Lz4fMakes S src x y w)
      (fun r => ∃ u o, Makes (v := lz4FrameCodec F) (Lz4fSending S) (Lz4fWrote Frame) src x y w r u o)
      (lz4fEncoderStep .finish a) := by
  obtain ⟨⟨s, flushed⟩, v⟩ := a
  obtain ⟨u, o, hm, hs⟩ := h
  have hs := hs.drained S v
  have hm : w.Moved u (o ++ s.stage.take v.room) (lz4Drain s.stage v).2 :=
    hm.trans (.put (by rw [List.length_take]; exact Nat.min_le_left _ _))
  rw [List.append_assoc] at hs
  unfold lz4fEncoderStep
  dsimp only at hs hm ⊢
  generalize o ++ s.stage.take v.room = o at *
  generalize (lz4Drain s.stage v).1 = stage, (lz4Drain s.stage v).2 = v at *
  by_cases hstage : stage = []
  swap
  · rw [if_pos hstage]
    exact ⟨u, o, hm.eq, fun _ _ => hs, nofun⟩
  subst hstage
  rw [if_neg (by simp)]
  by_cases hended : s.ended = true
  · cases hs with
    | fresh _ hnot => exact absurd hended (by simp [show s.ended = false from hnot])
    | begun _ hnot => exact absurd hended (by simp [show s.ended = false from hnot])
    | ended _ taken wrote =>
      rw [List.append_nil] at wrote
      split_ifs
      · exact ⟨u, o, hm.eq, fun _ hne => absurd rfl hne, fun _ => ⟨taken, wrote⟩⟩
      · exact ⟨u, o, hm.eq, fun _ hne => absurd rfl hne, fun _ => ⟨taken, wrote⟩⟩
  cases hs with
  | ended hend => exact absurd hend hended
  | fresh started ended done stage taken given =>
    rw [if_neg (by simp [show s.done = false from done]), if_neg hended, if_pos started]
    cases hr : F.begin s.cctx (lz4fBeginPrefs { s with stage := [] } v .finish) with
    | mk r z =>
      cases r with
      | error code => exact lz4fStaged_error S hm code
      | ok header =>
        refine ⟨u, o, hm, .begun rfl ended done ?_⟩
        rw [taken, given]
        exact S.begin hr
  | begun started ended done sent =>
    rw [if_neg (by simp [show s.done = false from done]), if_neg hended,
      if_neg (by simp [show s.started = true from started])]
    rw [List.append_nil] at sent
    by_cases hinput : v.input = []
    swap
    · rw [if_pos hinput]
      cases hr : F.update s.cctx (v.input.take (min v.input.length lz4fChunk)) with
      | mk r z =>
        cases r with
        | error code => exact lz4fStaged_error S hm code
        | ok bytes =>
          have hmoved := hm.trans (.take (Nat.min_le_left v.input.length lz4fChunk))
          rw [List.append_nil] at hmoved
          refine ⟨_, o, hmoved, .begun started ended done ?_⟩
          rw [(taken_append hall hm _).2]
          exact S.update sent hr
    rw [if_neg (by simpa using hinput), if_pos rfl]
    cases hr : F.finish s.cctx with
    | mk r z =>
      cases r with
      | error code => exact lz4fStaged_error S hm code
      | ok tail =>
        have hsrc := (taken_append hall hm 0).1
        rw [hinput, List.append_nil] at hsrc
        exact ⟨u, o, hm, .ended rfl hsrc (hsrc ▸ S.finish sent hr)⟩

theorem lz4fEncoderProcess_makes {s : Lz4fEncoder F} {src x y : List UInt8} (w : Window)
    (h : Lz4fSending S s src x y) (hall : x ++ w.input = src) :
    ∃ u o, Makes (v := lz4FrameCodec F) (Lz4fSending S) (Lz4fWrote Frame) src x y w
      (lz4fEncoderProcess s w .finish) u o := by
  have hstart : Lz4fMakes S src x y w ((s, false), w) :=
    ⟨0, [], .refl w, by rwa [List.take_zero, List.append_nil, List.append_nil]⟩
  refine runLoop_keeps (Lz4fMakes S src x y w) _ (fun a ha => lz4fEncoderStep_makes S hall ha)
    (fun a ha => ?_) hstart _
  obtain ⟨u, o, hm, -⟩ := ha
  exact ⟨u, o, hm.eq, nofun, nofun⟩

theorem lz4fEncodes_frame (S : F.Sends Frame) {lookup : CodecId → Option CodecVtable}
    {opts : EncoderOpts} {e : Encoder (lz4FrameCodec F)}
    (hnew : encoderNew lookup opts = .ok ⟨lz4FrameCodec F, e⟩) {n : ℕ} {src b : List UInt8}
    (h : Encoding.EncodesBy (OneSlice n) e src b) : Lz4fWrote Frame src b := by
  obtain ⟨hopen, z, level, hstate⟩ := lz4fEncoder_fresh hnew
  refine encodesBy_made (lz4FrameCodec_encodes F) hopen (fun src _ => ?_)
    (fun w h hall => lz4fEncoderProcess_makes S w h hall) h
  rw [hstate]
  exact .fresh rfl rfl rfl rfl rfl rfl

end Lz4Frame

end Zukomp
