import Zukomp.Core.Renewal
import Zukomp.Frames.Lz4f
import Zukomp.Frames.Zstd

/-! # Resets of the framed codecs

The frame continuation is set up anew by the wrapper, and the library's context by its own
reset. A context counts as renewed when no later call of the library can tell.
-/

namespace Zukomp

open Library

variable {ε : Type}

/-- A relation between contexts that no call of the decompressor can tell apart. -/
structure FrameLib.Alike (L : FrameLib ε) where
  Same : L.State → L.State → Prop
  decompress : ∀ {z z'} input room, Same z z' →
    (L.decompress z input room).result = (L.decompress z' input room).result ∧
      (L.decompress z input room).used = (L.decompress z' input room).used ∧
      (L.decompress z input room).out = (L.decompress z' input room).out ∧
      Same (L.decompress z input room).state (L.decompress z' input room).state

variable {L : FrameLib ε} (A : L.Alike)

namespace FrameLib.Alike

/-- The wrapper's own state is the same. -/
def Framed (s t : FramedState L) : Prop := A.Same s.dctx t.dctx ∧ s.frames = t.frames

/-- A way to hand over held bytes that cannot tell either. -/
def Feeds (feed : L.State → List UInt8 → Status × L.State) : Prop :=
  ∀ z z' p, A.Same z z' → (feed z p).1 = (feed z' p).1 ∧ A.Same (feed z p).2 (feed z' p).2

variable {A}

theorem feedHeld_feeds (fail : ε → Status) {all : FrameStep L.State ε → ℕ → Bool}
    (hall : ∀ r r' : FrameStep L.State ε, r.used = r'.used → r.out = r'.out → all r = all r') :
    A.Feeds (feedHeld fail all) := by
  intro z z' p h
  obtain ⟨hres, hused, hout, hstate⟩ := A.decompress p 0 h
  unfold feedHeld
  dsimp only
  rw [hres, hall _ _ hused hout]
  cases (L.decompress z' p 0).result with
  | error code => exact ⟨rfl, hstate⟩
  | ended => exact ⟨rfl, hstate⟩
  | more => exact ⟨rfl, hstate⟩

variable {feed : L.State → List UInt8 → Status × L.State} {z z' : L.State}

theorem framesBetween_same (hfeed : A.Feeds feed) (h : A.Same z z') (f : Frames) (w : Window)
    (mode : Flush) :
    (framesBetween feed f z w mode).1 = (framesBetween feed f z' w mode).1 ∧
      (framesBetween feed f z w mode).2.1 = (framesBetween feed f z' w mode).2.1 ∧
      A.Same (framesBetween feed f z w mode).2.2.1 (framesBetween feed f z' w mode).2.2.1 ∧
      (framesBetween feed f z w mode).2.2.2 = (framesBetween feed f z' w mode).2.2.2 := by
  unfold framesBetween
  cases f.state with
  | done => exact ⟨rfl, rfl, h, rfl⟩
  | body => exact ⟨rfl, rfl, h, rfl⟩
  | between =>
    dsimp only
    by_cases hflags : f.flags &&& decConcatMembers = 0
    · rw [if_pos hflags, if_pos hflags]
      exact ⟨rfl, rfl, h, rfl⟩
    rw [if_neg hflags, if_neg hflags]
    by_cases hheld : f.held = []
    · rw [if_pos hheld, if_pos hheld]
      split_ifs <;> exact ⟨rfl, rfl, h, rfl⟩
    rw [if_neg hheld, if_neg hheld]
    rcases extendHeld f.kind f.held w.input with ⟨_ | _, held, n⟩
    · exact ⟨rfl, rfl, h, rfl⟩
    dsimp only
    by_cases hfull : held.length = 4
    · rw [if_pos hfull, if_pos hfull]
      obtain ⟨hst, hstate⟩ := hfeed z z' held h
      rcases hz : feed z held with ⟨st, y⟩
      rcases hz' : feed z' held with ⟨st', y'⟩
      rw [hz, hz'] at hst hstate
      simp only at hst
      subst hst
      cases st <;> exact ⟨rfl, rfl, hstate, rfl⟩
    · rw [if_neg hfull, if_neg hfull]
      split_ifs <;> exact ⟨rfl, rfl, h, rfl⟩

theorem frameProbe_same (fail : ε → Status) (h : A.Same z z') :
    (frameProbe fail z).status = (frameProbe fail z').status ∧
      (frameProbe fail z).byte = (frameProbe fail z').byte ∧
      (frameProbe fail z).ended = (frameProbe fail z').ended ∧
      A.Same (frameProbe fail z).state (frameProbe fail z').state := by
  obtain ⟨hres, -, hout, hstate⟩ := A.decompress [] 1 h
  unfold frameProbe
  dsimp only
  rw [hres, hout]
  cases (L.decompress z' [] 1).result with
  | error code => exact ⟨rfl, rfl, rfl, hstate⟩
  | ended => exact ⟨rfl, rfl, rfl, hstate⟩
  | more => exact ⟨rfl, rfl, rfl, hstate⟩

theorem framesStalled_same (fail : ε → Status) (h : A.Same z z') (f : Frames)
    (availIn availOut : ℕ) (mode : Flush) :
    (framesStalled (frameProbe fail) f z availIn availOut mode).1 =
        (framesStalled (frameProbe fail) f z' availIn availOut mode).1 ∧
      (framesStalled (frameProbe fail) f z availIn availOut mode).2.1 =
        (framesStalled (frameProbe fail) f z' availIn availOut mode).2.1 ∧
      A.Same (framesStalled (frameProbe fail) f z availIn availOut mode).2.2
        (framesStalled (frameProbe fail) f z' availIn availOut mode).2.2 := by
  obtain ⟨hst, hbyte, hended, hstate⟩ := frameProbe_same fail h
  unfold framesStalled
  dsimp only
  rw [hst, hbyte, hended]
  by_cases hout : availOut = 0
  · rw [if_pos hout, if_pos hout]
    split_ifs <;> first | exact ⟨rfl, rfl, h⟩ | exact ⟨rfl, rfl, hstate⟩ | skip
    all_goals cases (frameProbe fail z').byte <;> exact ⟨rfl, rfl, hstate⟩
  · rw [if_neg hout, if_neg hout]
    split_ifs <;> exact ⟨rfl, rfl, h⟩

/-- A turn goes on alike, or returns alike. -/
theorem framedStep_same (fail : ε → Status) (hfeed : A.Feeds feed) (mode : Flush)
    {s t : FramedState L} (h : A.Framed s t) (w : Window) :
    Sum.LiftRel (fun x y => A.Framed x.1 y.1 ∧ x.2 = y.2) (SameResult A.Framed)
      (framedStep fail feed mode (s, w)) (framedStep fail feed mode (t, w)) := by
  obtain ⟨z, f⟩ := s
  obtain ⟨z', f'⟩ := t
  obtain ⟨hz, hf⟩ := h
  simp only at hz hf
  subst hf
  unfold framedStep
  dsimp only
  cases framesPay f w with
  | none => exact .inr ⟨rfl, ⟨hz, rfl⟩, rfl⟩
  | some y =>
    obtain ⟨f, w⟩ := y
    dsimp only [frameTurn]
    by_cases hbody : f.state ≠ .body
    · rw [if_pos hbody, if_pos hbody]
      obtain ⟨hst, hfr, hstate, hw⟩ := framesBetween_same hfeed hz f w mode
      rcases hr : framesBetween feed f z w mode with ⟨st, g, y, u⟩
      rcases hr' : framesBetween feed f z' w mode with ⟨st', g', y', u'⟩
      rw [hr, hr'] at hst hfr hstate hw
      simp only at hst hfr hstate hw
      subst hst hfr hw
      cases st with
      | ok => exact .inl ⟨⟨hstate, rfl⟩, rfl⟩
      | _ => exact .inr ⟨rfl, ⟨hstate, rfl⟩, rfl⟩
    · rw [if_neg hbody, if_neg hbody]
      obtain ⟨hres, hused, hout, hstate⟩ := A.decompress w.input w.room hz
      rw [hres, hused, hout]
      cases (L.decompress z' w.input w.room).result with
      | error code => exact .inr ⟨rfl, ⟨hstate, rfl⟩, rfl⟩
      | ended => exact .inl ⟨⟨hstate, rfl⟩, rfl⟩
      | more =>
        dsimp only
        split_ifs
        · obtain ⟨hst, hfr, hstate'⟩ :=
            framesStalled_same fail hstate f w.input.length w.room mode
          generalize framesStalled (frameProbe fail) f (L.decompress z w.input w.room).state
            w.input.length w.room mode = r at hst hfr hstate' ⊢
          generalize framesStalled (frameProbe fail) f (L.decompress z' w.input w.room).state
            w.input.length w.room mode = r' at hst hfr hstate' ⊢
          obtain ⟨st, g, y⟩ := r
          obtain ⟨st', g', y'⟩ := r'
          simp only at hst hfr hstate'
          subst hst hfr
          cases st with
          | ok => exact .inl ⟨⟨hstate', rfl⟩, rfl⟩
          | _ => exact .inr ⟨rfl, ⟨hstate', rfl⟩, rfl⟩
        · exact .inl ⟨⟨hstate, rfl⟩, rfl⟩

theorem framedProcess_same (fail : ε → Status) (hfeed : A.Feeds feed) {s t : FramedState L}
    (h : A.Framed s t) (w : Window) (mode : Flush) :
    SameResult A.Framed (framedProcess fail feed s w mode) (framedProcess fail feed t w mode) := by
  refine runLoop_lockstep (fun x y => A.Framed x.1 y.1 ∧ x.2 = y.2) (SameResult A.Framed) ?_ ?_
    (⟨h, rfl⟩ : A.Framed s t ∧ w = w) _
  · rintro ⟨s, w⟩ ⟨t, _⟩ ⟨h, rfl⟩
    exact framedStep_same fail hfeed mode h w
  · rintro ⟨s, w⟩ ⟨t, _⟩ ⟨h, rfl⟩
    exact ⟨rfl, h, rfl⟩

end FrameLib.Alike

/-! ## The zstd decoder -/

/-- What libzstd's decompressor documents of its resets: a session starts afresh, and the
window is the one set last. -/
structure Zstd.DecoderResets (Z : Zstd) extends Z.toFrameLib.Alike where
  Fresh : Z.State → Prop
  created : ∀ {z}, Z.createDCtx = some z → Fresh z
  reset : ∀ {z z'}, Z.resetDCtx z = some z' → Fresh z'
  window : ∀ {z z' y y' w}, Fresh z → Fresh z' → Z.setWindowLogMax z w = some y →
    Z.setWindowLogMax z' w = some y' → Same y y'

section ZstdDecoder

variable {Z : Zstd} (R : Z.DecoderResets)

/-- Decoders that differ at most in what libzstd cannot tell. -/
def Zstd.DecoderResets.SameDec (s t : ZstdDecoder Z) : Prop :=
  R.toAlike.Framed s.toFramedState t.toFramedState ∧ s.maxOutput = t.maxOutput

theorem zstdFeedHeld_alike (maxOutput : UInt64) : R.toAlike.Feeds (zstdFeedHeld maxOutput) :=
  FrameLib.Alike.feedHeld_feeds _ fun r r' hused _ => by rw [hused]

theorem zstdDecoderProcess_same {s t : ZstdDecoder Z} (h : R.SameDec s t) (w : Window)
    (mode : Flush) :
    SameResult R.SameDec (zstdDecoderProcess s w mode) (zstdDecoderProcess t w mode) := by
  obtain ⟨s, max⟩ := s
  obtain ⟨t, max'⟩ := t
  obtain ⟨hframed, hmax⟩ := h
  simp only at hmax
  subst hmax
  obtain ⟨hst, hstate, hw⟩ := FrameLib.Alike.framedProcess_same (zstdError false max)
    (zstdFeedHeld_alike R max) hframed w mode
  exact ⟨hst, ⟨hstate, rfl⟩, hw⟩

theorem zstdWindow_same {z z' : Z.State} (h : R.Fresh z) (h' : R.Fresh z') (f : Frames)
    (maxOutput : UInt64) {s t : ZstdDecoder Z}
    (hs : zstdWindow ⟨⟨z, f⟩, maxOutput⟩ = (.ok, s)) (ht : zstdWindow ⟨⟨z', f⟩, maxOutput⟩ = (.ok, t)) :
    R.SameDec s t := by
  unfold zstdWindow at hs ht
  dsimp only at hs ht
  split at hs
  · cases hs
  · next y hy =>
    split at ht
    · cases ht
    · next y' hy' =>
      cases hs
      cases ht
      exact ⟨⟨R.window h h' hy hy', rfl⟩, rfl⟩

def zstdDecoderRenewal : DecoderRenewal (zstdCodec Z) where
  process := zstdDecoderProcess
  lifted := zstdCodec_decodes Z
  Inv _ := True
  Same := R.SameDec
  inv_new _ := trivial
  inv_process _ _ _ := trivial
  inv_reset _ _ _ := trivial
  same_process w mode h := zstdDecoderProcess_same R h w mode
  renews {reset s o t} hv _ hok hnew := by
    cases hv
    have hok : (zstdDecoderReset s o).1 = .ok := hok
    have hnew : zstdDecoderNew Z o = .ok t := hnew
    change R.SameDec (zstdDecoderReset s o).2 t
    unfold zstdDecoderReset at hok ⊢
    unfold zstdDecoderNew at hnew
    split at hok
    · cases hok
    · next z hz =>
      split at hnew
      · cases hnew
      · next z' hz' =>
        split at hnew
        · next t' ht =>
          cases hnew
          exact zstdWindow_same R (R.reset hz) (R.created hz') _ _ (Prod.ext hok rfl) ht
        · cases hnew

end ZstdDecoder

/-! ## The lz4-frame decoder -/

/-- What liblz4's frame decompressor documents of its reset. -/
structure Lz4f.DecoderResets (F : Lz4f) extends F.toFrameLib.Alike where
  reset : ∀ {z} y, F.createDctx = some z → Same (F.resetDctx y) z

section Lz4fDecoder

variable {F : Lz4f} (R : F.DecoderResets)

theorem lz4fFeedHeld_alike : R.toAlike.Feeds (lz4fFeedHeld (F := F)) :=
  FrameLib.Alike.feedHeld_feeds _ fun r r' hused hout => by rw [hused, hout]

def lz4FrameDecoderRenewal : DecoderRenewal (lz4FrameCodec F) where
  process := lz4fDecoderProcess
  lifted := lz4FrameCodec_decodes F
  Inv _ := True
  Same := R.toAlike.Framed
  inv_new _ := trivial
  inv_process _ _ _ := trivial
  inv_reset _ _ _ := trivial
  same_process w mode h :=
    FrameLib.Alike.framedProcess_same (lz4fError false) (lz4fFeedHeld_alike R) h w mode
  renews {reset s o t} hv _ _ hnew := by
    cases hv
    have hnew : lz4fDecoderNew F o = .ok t := hnew
    unfold lz4fDecoderNew at hnew
    split at hnew
    · cases hnew
    · next z hz =>
      cases hnew
      exact ⟨R.reset s.dctx hz, rfl⟩

end Lz4fDecoder

/-! ## The zstd encoder -/

/-- What libzstd's compressor documents: a session reset keeps the parameters. `At level z` says
that `z` compresses at the level with the checksum on, `Fresh` that it cannot be told from a new
context at the level, and `Clean` that a session reset and that level make it so: always where
no session has begun. A row match finder's hash salt outlives the session. -/
structure Zstd.EncoderResets (Z : Zstd) where
  Same : Z.CCtx → Z.CCtx → Prop
  At : ℤ → Z.CCtx → Prop
  Fresh : ℤ → Z.CCtx → Prop
  Clean : ℤ → Z.CCtx → Prop
  Unused : Z.CCtx → Prop
  unused_clean : ∀ {z} level, Unused z → Clean level z
  fresh_at : ∀ {level z}, Fresh level z → At level z
  created : ∀ {level a b c}, Z.createCCtx = some a → Z.setLevel a level = some b →
    Z.setChecksumFlag b = some c → Fresh level c ∧ Unused c
  compress_at : ∀ {level z} input room op, At level z → At level (Z.compress z input room op).state
  reset_at : ∀ {level z z'}, At level z → Z.resetCCtx z = some z' → At level z'
  relevel_at : ∀ {level level' z z'}, At level z → Z.setLevel z level' = some z' → At level' z'
  reset : ∀ {level z z'}, At level z → Clean level z → Z.resetCCtx z = some z' → Fresh level z'
  relevel : ∀ {level level' z y z'}, At level z → Clean level' z → Z.resetCCtx z = some y →
    Z.setLevel y level' = some z' → Fresh level' z'
  reset_unused : ∀ {z z'}, Unused z → Z.resetCCtx z = some z' → Unused z'
  relevel_unused : ∀ {level z z'}, Unused z → Z.setLevel z level = some z' → Unused z'
  same : ∀ {level z z'}, Fresh level z → Fresh level z' → Same z z'
  compress : ∀ {z z'} input room op, Same z z' →
    (Z.compress z input room op).remaining = (Z.compress z' input room op).remaining ∧
      (Z.compress z input room op).used = (Z.compress z' input room op).used ∧
      (Z.compress z input room op).out = (Z.compress z' input room op).out ∧
      Same (Z.compress z input room op).state (Z.compress z' input room op).state

section ZstdEncoder

variable {Z : Zstd} (R : Z.EncoderResets)

/-- The level that a request stands for. -/
def zstdLevelOf (level : ℤ) : ℤ := if level = levelDefault then zstdLevelDefault else level

/-- The level remembered is the one in force in the context. -/
structure Zstd.EncoderResets.EncodesAt (level : ℤ) (s : ZstdEncoder Z) : Prop where
  at_ : R.At s.level s.cctx
  level_eq : s.level = zstdLevelOf level

def Zstd.EncoderResets.SameEnc (s t : ZstdEncoder Z) : Prop :=
  R.Same s.cctx t.cctx ∧ s.done = t.done

theorem zstdEncoderStep_same (mode : Flush) {s t : ZstdEncoder Z} (h : R.SameEnc s t) (w : Window) :
    Sum.LiftRel (fun x y => R.SameEnc x.1 y.1 ∧ x.2 = y.2) (SameResult R.SameEnc)
      (zstdEncoderStep mode (s, w)) (zstdEncoderStep mode (t, w)) := by
  obtain ⟨hz, hdone⟩ := h
  obtain ⟨hrem, hused, hout, hstate⟩ := R.compress w.input w.room (zstdOp mode) hz
  unfold zstdEncoderStep
  dsimp only
  rw [hrem, hused, hout]
  cases (Z.compress t.cctx w.input w.room (zstdOp mode)).remaining with
  | error code => exact .inr ⟨rfl, ⟨hstate, hdone⟩, rfl⟩
  | ok n =>
    dsimp only
    split_ifs
    · exact .inr ⟨rfl, ⟨hstate, rfl⟩, rfl⟩
    · exact .inr ⟨rfl, ⟨hstate, hdone⟩, rfl⟩
    · exact .inr ⟨rfl, ⟨hstate, hdone⟩, rfl⟩
    · exact .inr ⟨rfl, ⟨hstate, hdone⟩, rfl⟩
    · exact .inl ⟨⟨hstate, hdone⟩, rfl⟩

theorem zstdEncoderProcess_same {s t : ZstdEncoder Z} (h : R.SameEnc s t) (w : Window)
    (mode : Flush) :
    SameResult R.SameEnc (zstdEncoderProcess s w mode) (zstdEncoderProcess t w mode) := by
  unfold zstdEncoderProcess
  rw [← h.2]
  split_ifs
  · exact ⟨rfl, h, rfl⟩
  · refine runLoop_lockstep (fun x y => R.SameEnc x.1 y.1 ∧ x.2 = y.2) (SameResult R.SameEnc)
      ?_ ?_ (⟨h, rfl⟩ : R.SameEnc s t ∧ w = w) _
    · rintro ⟨s, w⟩ ⟨t, _⟩ ⟨h, rfl⟩
      exact zstdEncoderStep_same R mode h w
    · rintro ⟨s, w⟩ ⟨t, _⟩ ⟨h, rfl⟩
      exact ⟨rfl, h, rfl⟩

theorem zstdEncoderProcess_at {level : ℤ} {s : ZstdEncoder Z} (h : R.EncodesAt level s)
    (w : Window) (mode : Flush) : R.EncodesAt level (zstdEncoderProcess s w mode).2.1 := by
  unfold zstdEncoderProcess
  split_ifs
  · exact h
  · refine runLoop_keeps (fun x : ZstdEncoder Z × Window => R.EncodesAt level x.1)
      (fun r : Status × ZstdEncoder Z × Window => R.EncodesAt level r.2.1)
      (fun x hx => ?_) (fun x hx => hx) h _
    have hat := R.compress_at x.2.input x.2.room (zstdOp mode) hx.at_
    unfold zstdEncoderStep
    dsimp only
    split
    · exact ⟨hat, hx.level_eq⟩
    · split_ifs <;> exact ⟨hat, hx.level_eq⟩

omit R in
/-- A reset that succeeds asks for the level in force, of the context as the session reset
leaves it. -/
theorem zstdEncoderReset_ok {s : ZstdEncoder Z} {o : EncoderOpts}
    (hok : (zstdEncoderReset s o).1 = .ok) :
    ∃ z, Z.resetCCtx s.cctx = some z ∧
      ((zstdEncoderReset s o).2.cctx = z ∧ (zstdEncoderReset s o).2.level = s.level ∨
        Z.setLevel z (zstdEncoderReset s o).2.level = some (zstdEncoderReset s o).2.cctx) ∧
      (zstdEncoderReset s o).2.level = levelAfter s.level o.level ∧
      (zstdEncoderReset s o).2.done = false := by
  unfold zstdEncoderReset at hok ⊢
  split at hok
  · cases hok
  · next z hz =>
    refine ⟨z, hz, ?_⟩
    dsimp only at hok ⊢
    by_cases hlevel : o.level ≠ levelDefault ∧ o.level ≠ s.level
    · rw [if_pos hlevel] at hok ⊢
      unfold zstdLevel at hok ⊢
      dsimp only at hok ⊢
      rw [if_neg hlevel.1] at hok ⊢
      cases hset : Z.setLevel z o.level with
      | none =>
        rw [hset] at hok
        cases hok
      | some z' => exact ⟨.inr hset, (if_neg hlevel.1).symm, rfl⟩
    · rw [if_neg hlevel]
      refine ⟨.inl ⟨rfl, rfl⟩, ?_, rfl⟩
      unfold levelAfter
      split_ifs with hd
      · rfl
      · by_contra hne
        exact hlevel ⟨hd, fun heq => hne heq.symm⟩

variable {R} in
theorem Zstd.EncoderResets.EncodesAt.levelAfter {level : ℤ} {s : ZstdEncoder Z}
    (h : R.EncodesAt level s) (request : ℤ) :
    levelAfter s.level request = zstdLevelOf (levelAfter level request) := by
  unfold Zukomp.levelAfter
  split_ifs with hd
  · exact h.level_eq
  · rw [zstdLevelOf, if_neg hd]

theorem zstdEncoderReset_at {level : ℤ} {s : ZstdEncoder Z} (h : R.EncodesAt level s)
    {o : EncoderOpts} (hok : (zstdEncoderReset s o).1 = .ok) :
    R.EncodesAt (levelAfter level o.level) (zstdEncoderReset s o).2 := by
  obtain ⟨z, hz, hset, hlevel, -⟩ := zstdEncoderReset_ok hok
  have hat := R.reset_at h.at_ hz
  refine ⟨?_, hlevel.trans (h.levelAfter o.level)⟩
  rcases hset with ⟨hcctx, hkept⟩ | hset
  · rw [hcctx, hkept]
    exact hat
  · exact R.relevel_at hat hset

/-- Of a clean context it leaves one like a new one at the level. -/
theorem zstdEncoderReset_fresh {level : ℤ} {s : ZstdEncoder Z} (h : R.EncodesAt level s)
    {o : EncoderOpts} (hclean : R.Clean (zstdLevelOf (levelAfter level o.level)) s.cctx)
    (hok : (zstdEncoderReset s o).1 = .ok) :
    R.Fresh (zstdLevelOf (levelAfter level o.level)) (zstdEncoderReset s o).2.cctx := by
  obtain ⟨z, hz, hset, hlevel, -⟩ := zstdEncoderReset_ok hok
  rw [← h.levelAfter, ← hlevel] at hclean ⊢
  rcases hset with ⟨hcctx, hkept⟩ | hset
  · rw [hkept] at hclean ⊢
    rw [hcctx]
    exact R.reset h.at_ hclean hz
  · exact R.relevel h.at_ hclean hz hset

theorem zstdEncoderReset_unused {s : ZstdEncoder Z} (h : R.Unused s.cctx) {o : EncoderOpts}
    (hok : (zstdEncoderReset s o).1 = .ok) : R.Unused (zstdEncoderReset s o).2.cctx := by
  obtain ⟨z, hz, hset, -, -⟩ := zstdEncoderReset_ok hok
  rcases hset with ⟨hcctx, -⟩ | hset
  · rw [hcctx]
    exact R.reset_unused h hz
  · exact R.relevel_unused (R.reset_unused h hz) hset

theorem zstdEncoderNew_fresh {o : EncoderOpts} {s : ZstdEncoder Z}
    (h : zstdEncoderNew Z o = .ok s) :
    (R.Fresh s.level s.cctx ∧ R.Unused s.cctx) ∧ s.level = zstdLevelOf o.level ∧
      s.done = false := by
  unfold zstdEncoderNew zstdLevel at h
  dsimp only at h
  split at h
  · cases h
  · next a ha =>
    cases hb : Z.setLevel a (if o.level = levelDefault then zstdLevelDefault else o.level) with
    | none =>
      rw [hb] at h
      cases h
    | some b =>
      rw [hb] at h
      dsimp only at h
      split at h
      · cases h
      · next c hc =>
        cases h
        exact ⟨R.created ha hb hc, rfl, rfl⟩

def zstdEncoderRenewal : EncoderRenewal (zstdCodec Z) where
  process := zstdEncoderProcess
  lifted := zstdCodec_encodes Z
  Inv := R.EncodesAt
  Same := R.SameEnc
  Clean level s := R.Clean (zstdLevelOf level) (ZstdEncoder.cctx s)
  inv_new h := by
    obtain ⟨hfresh, hlevel, -⟩ := zstdEncoderNew_fresh R h
    exact ⟨R.fresh_at hfresh.1, hlevel⟩
  inv_process w mode h := zstdEncoderProcess_at R h w mode
  inv_reset hv h hok := by
    cases hv
    exact zstdEncoderReset_at R h hok
  Unused s := R.Unused (ZstdEncoder.cctx s)
  unused_clean level h := R.unused_clean _ h
  unused_new h := (zstdEncoderNew_fresh R h).1.2
  unused_reset hv h hok := by
    cases hv
    exact zstdEncoderReset_unused R h hok
  same_process w mode h := zstdEncoderProcess_same R h w mode
  renews {reset level s o o' t} hv h hclean hok hnew hlevel := by
    cases hv
    have hfresh := zstdEncoderReset_fresh R h hclean hok
    obtain ⟨-, -, -, -, hdone⟩ := zstdEncoderReset_ok hok
    obtain ⟨⟨hfresh', -⟩, hl, hdone'⟩ := zstdEncoderNew_fresh R hnew
    rw [hl, hlevel] at hfresh'
    exact ⟨R.same hfresh hfresh', hdone.trans hdone'.symm⟩

end ZstdEncoder

/-! ## The lz4-frame encoder -/

/-- What liblz4's frame compressor documents: a context is `Clean` at a level where
`LZ4F_compressBegin` starts a frame in it as in a new one, always where none has begun. A used
one keeps the hash table of its last frame. -/
structure Lz4f.EncoderResets (F : Lz4f) where
  Same : F.Cctx → F.Cctx → Prop
  Clean : ℤ → F.Cctx → Prop
  created : ∀ {z} level, F.createCctx = some z → Clean level z
  begin : ∀ {z z'} prefs, Clean prefs.compressionLevel z → Clean prefs.compressionLevel z' →
    (F.begin z prefs).1 = (F.begin z' prefs).1 ∧ Same (F.begin z prefs).2 (F.begin z' prefs).2
  update : ∀ {z z'} input, Same z z' →
    (F.update z input).1 = (F.update z' input).1 ∧ Same (F.update z input).2 (F.update z' input).2
  flush : ∀ {z z'}, Same z z' → (F.flush z).1 = (F.flush z').1 ∧ Same (F.flush z).2 (F.flush z').2
  finish : ∀ {z z'}, Same z z' →
    (F.finish z).1 = (F.finish z').1 ∧ Same (F.finish z).2 (F.finish z').2

section Lz4fEncoder

variable {F : Lz4f} (R : F.EncoderResets)

/-- Contexts that cannot be told apart before the frame has begun, or after. -/
def Lz4f.EncoderResets.Alike (level : ℤ) : Bool → F.Cctx → F.Cctx → Prop
  | false, z, z' => R.Clean level z ∧ R.Clean level z'
  | true, z, z' => R.Same z z'

/-- Encoders whose contexts cannot be told apart where the frame is. -/
structure Lz4f.EncoderResets.SameEnc (s t : Lz4fEncoder F) : Prop where
  cctx : R.Alike s.prefs.compressionLevel s.started s.cctx t.cctx
  rest : t = { s with cctx := t.cctx, level := t.level }

theorem lz4fStaged_same {s t : Lz4fEncoder F} (h : R.SameEnc s t) (flushed : Bool) (w : Window)
    (r : Except Lz4fError (List UInt8)) :
    Sum.LiftRel (fun x y => (R.SameEnc x.1.1 y.1.1 ∧ x.1.2 = y.1.2) ∧ x.2 = y.2)
      (SameResult R.SameEnc) (lz4fStaged s flushed w r) (lz4fStaged t flushed w r) := by
  cases r with
  | error code => exact .inr ⟨rfl, h, rfl⟩
  | ok bytes =>
    refine .inl ⟨⟨⟨h.cctx, ?_⟩, rfl⟩, rfl⟩
    have hrest := congrArg (fun t : Lz4fEncoder F => { t with stage := bytes }) h.rest
    exact hrest

theorem lz4fEncoderStep_same (mode : Flush) (flushed : Bool) {s t : Lz4fEncoder F}
    (h : R.SameEnc s t) (w : Window) :
    Sum.LiftRel (fun x y => (R.SameEnc x.1.1 y.1.1 ∧ x.1.2 = y.1.2) ∧ x.2 = y.2)
      (SameResult R.SameEnc) (lz4fEncoderStep mode ((s, flushed), w))
      (lz4fEncoderStep mode ((t, flushed), w)) := by
  obtain ⟨z, level, prefs, started, ended, done, stage⟩ := s
  obtain ⟨z', level', prefs', started', ended', done', stage'⟩ := t
  obtain ⟨hz, hrest⟩ := h
  cases hrest
  simp only at hz
  unfold lz4fEncoderStep
  dsimp only
  by_cases hstage : (lz4Drain stage w).1 ≠ []
  · rw [if_pos hstage, if_pos hstage]
    exact .inr ⟨rfl, ⟨hz, rfl⟩, rfl⟩
  rw [if_neg hstage, if_neg hstage]
  by_cases hdone : done = true
  · rw [if_pos hdone, if_pos hdone]
    exact .inr ⟨rfl, ⟨hz, rfl⟩, rfl⟩
  rw [if_neg hdone, if_neg hdone]
  by_cases hended : ended = true
  · rw [if_pos hended, if_pos hended]
    exact .inr ⟨rfl, ⟨hz, rfl⟩, rfl⟩
  rw [if_neg hended, if_neg hended]
  by_cases hstarted : started = false
  · rw [if_pos hstarted, if_pos hstarted]
    rw [hstarted] at hz
    have hlevel : (if mode = .finish then
        { prefs with contentSize := (lz4Drain stage w).2.input.length }
        else prefs).compressionLevel = prefs.compressionLevel := by
      split_ifs <;> rfl
    obtain ⟨hres, hstate⟩ := R.begin (if mode = .finish then
      { prefs with contentSize := (lz4Drain stage w).2.input.length } else prefs)
      (by rw [hlevel]; exact hz.1) (by rw [hlevel]; exact hz.2)
    unfold lz4fBeginPrefs
    dsimp only
    rw [hres]
    refine lz4fStaged_same R ?_ flushed _ _
    exact ⟨hstate, rfl⟩
  rw [if_neg hstarted, if_neg hstarted]
  obtain rfl : started = true := by simpa using hstarted
  have hz : R.Same z z' := hz
  generalize lz4Drain stage w = y at hstage
  obtain ⟨stage, w⟩ := y
  dsimp only
  by_cases hinput : w.input ≠ []
  · rw [if_pos hinput, if_pos hinput]
    obtain ⟨hres, hstate⟩ := R.update (w.input.take (min w.input.length lz4fChunk)) hz
    rw [hres]
    cases (F.update z' (w.input.take (min w.input.length lz4fChunk))).1 with
    | error code =>
      refine lz4fStaged_same R ?_ flushed _ _
      exact ⟨hstate, rfl⟩
    | ok bytes =>
      refine lz4fStaged_same R ?_ flushed _ _
      exact ⟨hstate, rfl⟩
  rw [if_neg hinput, if_neg hinput]
  by_cases hfinish : mode = .finish
  · rw [if_pos hfinish, if_pos hfinish]
    obtain ⟨hres, hstate⟩ := R.finish hz
    rw [hres]
    cases (F.finish z').1 with
    | error code =>
      refine lz4fStaged_same R ?_ flushed _ _
      exact ⟨hstate, rfl⟩
    | ok bytes =>
      refine lz4fStaged_same R ?_ flushed _ _
      exact ⟨hstate, rfl⟩
  rw [if_neg hfinish, if_neg hfinish]
  by_cases hflush : mode = .flush ∧ flushed = false
  · rw [if_pos hflush, if_pos hflush]
    obtain ⟨hres, hstate⟩ := R.flush hz
    rw [hres]
    refine lz4fStaged_same R ?_ true _ _
    exact ⟨hstate, rfl⟩
  · rw [if_neg hflush, if_neg hflush]
    exact .inr ⟨rfl, ⟨hz, rfl⟩, rfl⟩

theorem lz4fEncoderProcess_same {s t : Lz4fEncoder F} (h : R.SameEnc s t) (w : Window)
    (mode : Flush) :
    SameResult R.SameEnc (lz4fEncoderProcess s w mode) (lz4fEncoderProcess t w mode) := by
  refine runLoop_lockstep (fun x y => (R.SameEnc x.1.1 y.1.1 ∧ x.1.2 = y.1.2) ∧ x.2 = y.2)
    (SameResult R.SameEnc) ?_ ?_ (⟨⟨h, rfl⟩, rfl⟩ : (R.SameEnc s t ∧ false = false) ∧ w = w) _
  · rintro ⟨⟨s, flushed⟩, w⟩ ⟨⟨t, _⟩, _⟩ ⟨⟨h, rfl⟩, rfl⟩
    exact lz4fEncoderStep_same R mode flushed h w
  · rintro ⟨⟨s, flushed⟩, w⟩ ⟨⟨t, _⟩, _⟩ ⟨⟨h, rfl⟩, rfl⟩
    exact ⟨rfl, h, rfl⟩

theorem lz4fEncoderProcess_level (s : Lz4fEncoder F) (w : Window) (mode : Flush) :
    (lz4fEncoderProcess s w mode).2.1.level = s.level := by
  refine runLoop_keeps (fun x : (Lz4fEncoder F × Bool) × Window => x.1.1.level = s.level)
    (fun r : Status × Lz4fEncoder F × Window => r.2.1.level = s.level)
    (fun x hx => ?_) (fun x hx => hx) rfl _
  have hstaged (t : Lz4fEncoder F) (ht : t.level = s.level) (flushed : Bool) (w : Window)
      (r : Except Lz4fError (List UInt8)) :
      Turn (fun x : (Lz4fEncoder F × Bool) × Window => x.1.1.level = s.level)
        (fun r : Status × Lz4fEncoder F × Window => r.2.1.level = s.level)
        (lz4fStaged t flushed w r) := by
    cases r with
    | error code => exact ht
    | ok bytes => exact ht
  unfold lz4fEncoderStep
  dsimp only
  split_ifs
  · exact hx
  · exact hx
  · exact hx
  · apply hstaged
    exact hx
  · split <;> (apply hstaged; exact hx)
  · split <;> (apply hstaged; exact hx)
  · apply hstaged
    exact hx
  · exact hx

def lz4FrameEncoderRenewal : EncoderRenewal (lz4FrameCodec F) where
  process := lz4fEncoderProcess
  lifted := lz4FrameCodec_encodes F
  Inv level s := Lz4fEncoder.level s = level
  Same := R.SameEnc
  Clean level s := R.Clean (lz4Level level) (Lz4fEncoder.cctx s)
  inv_new {o s} h := by
    have h : lz4fEncoderNew F o = .ok s := h
    unfold lz4fEncoderNew at h
    split at h <;> cases h
    rfl
  inv_process w mode h := (lz4fEncoderProcess_level _ w mode).trans h
  inv_reset {reset level s o} hv h _ := by
    cases hv
    change (if o.level ≠ levelDefault then o.level else Lz4fEncoder.level s) = _
    rw [h, levelAfter, ite_not]
  Unused s := F.createCctx = some (Lz4fEncoder.cctx s)
  unused_clean level h := R.created _ h
  unused_new {o s} h := by
    have h : lz4fEncoderNew F o = .ok s := h
    unfold lz4fEncoderNew at h
    split at h
    · cases h
    · next z hz =>
      cases h
      exact hz
  unused_reset hv h _ := by
    cases hv
    exact h
  same_process w mode h := lz4fEncoderProcess_same R h w mode
  renews {reset level s o o' t} hv h hclean _ hnew hlevel := by
    cases hv
    have hnew : lz4fEncoderNew F o' = .ok t := hnew
    have hreset : (if o.level ≠ levelDefault then o.level else Lz4fEncoder.level s) =
        o'.level := by rw [h, hlevel, levelAfter, ite_not]
    unfold lz4fEncoderNew at hnew
    split at hnew
    · cases hnew
    · next z hz =>
      cases hnew
      change R.SameEnc (lz4fEncoderReset s o).2 _
      unfold lz4fEncoderReset
      dsimp only
      rw [hreset]
      rw [← hlevel] at hclean
      exact ⟨⟨hclean, R.created _ hz⟩, rfl⟩

end Lz4fEncoder

end Zukomp
