import Zukomp.Core.Limits
import Zukomp.Frames.Zstd

/-! # The decoder window of zstd

A frame header claims a window, libzstd refuses what lies over the limit it was set, and zukomp
says whose limit that was: the caller's, or libzstd's own.
-/

namespace Zukomp

open Library

/-! ## The limit that is set -/

/-- The window a caller's own limit leaves: never less than 8 MiB. -/
def zstdCallerWindow (maxOutput : UInt64) : ℕ := max maxOutput.toNat (2 ^ 23)

/-- libzstd's own ceiling, 128 MiB. -/
def zstdLibraryWindow : ℕ := 2 ^ 27

theorem ceilLog2_spec (n : UInt64) : n.toNat ≤ 2 ^ ceilLog2 n ∨ ceilLog2 n = 63 := by
  unfold ceilLog2
  refine runLoop_rule (fun b => b ≤ 63) (fun b => n.toNat ≤ 2 ^ b ∨ b = 63) (fun b => 63 - b)
    (fun b hb => ?_) (Nat.zero_le _) (by omega)
  by_cases hmore : b < 63 ∧ 2 ^ b < n.toNat
  · rw [if_pos hmore, turn_inl]
    omega
  · rw [if_neg hmore, turn_inr]
    omega

theorem zstdWindowLog_spec (maxOutput : UInt64) : 2 ^ zstdWindowLog maxOutput ≤ zstdLibraryWindow ∧
    (maxOutput = 0 → 2 ^ zstdWindowLog maxOutput = zstdLibraryWindow) ∧
    min (zstdCallerWindow maxOutput) zstdLibraryWindow ≤ 2 ^ zstdWindowLog maxOutput := by
  unfold zstdWindowLog zstdLibraryWindow zstdCallerWindow zstdWindowLogFloor zstdWindowLogDefault
  by_cases hmax : maxOutput = 0
  · rw [if_neg (by simp [hmax])]
    exact ⟨le_rfl, fun _ => rfl, Nat.min_le_right ..⟩
  rw [if_pos hmax]
  have hle : min (max (ceilLog2 maxOutput) 23) 27 ≤ 27 := Nat.min_le_right ..
  refine ⟨Nat.pow_le_pow_right (by norm_num) hle, fun h => absurd h hmax, ?_⟩
  rcases Nat.lt_or_ge (ceilLog2 maxOutput) 27 with hlt | hge
  · have hceil : maxOutput.toNat ≤ 2 ^ ceilLog2 maxOutput := by
      rcases ceilLog2_spec maxOutput with h | h
      · exact h
      · omega
    rw [Nat.min_eq_left (Nat.max_le.mpr ⟨hlt.le, by norm_num⟩)]
    refine (Nat.min_le_left ..).trans (Nat.max_le.mpr ⟨hceil.trans ?_, ?_⟩)
    · exact Nat.pow_le_pow_right (by norm_num) (Nat.le_max_left ..)
    · exact Nat.pow_le_pow_right (by norm_num) (Nat.le_max_right ..)
  · rw [Nat.min_eq_right (hge.trans (Nat.le_max_left ..))]
    exact Nat.min_le_right ..

/-! ## The library -/

/-- What libzstd documents of its limit: `Declares z input W` says that a call of `z` on `input`
comes to the end of a frame header that declares the window `W`. -/
structure ZstdWindows (Z : Zstd) where
  limit : Z.State → ℕ
  Declares : Z.State → List UInt8 → ℕ → Prop
  -- `windowLogMax` may be any of 10 to 31 between frames
  settable : ∀ {z z' n}, Z.resetDCtx z = some z' → 10 ≤ n → n ≤ 31 →
    (Z.setWindowLogMax z' n).isSome
  limit_set : ∀ {z n z'}, Z.setWindowLogMax z n = some z' → limit z' = n
  limit_kept : ∀ z input room, limit (Z.decompress z input room).state = limit z
  refuses : ∀ {z input W} room, Declares z input W →
    ((Z.decompress z input room).result = .error .windowTooLarge ↔ 2 ^ limit z < W)

/-- The window a descriptor byte declares. -/
def zstdDescriptor (b : UInt8) : ℕ :=
  2 ^ (10 + b.toNat / 8) + 2 ^ (10 + b.toNat / 8) / 8 * (b.toNat % 8)

/-- The shortest header with a window descriptor. -/
def zstdHeader (b : UInt8) : List UInt8 := [0x28, 0xB5, 0x2F, 0xFD, 0x00, b]

/-- A libzstd that reads such headers and nothing after them. -/
def headerZstd : Zstd where
  State := ℕ
  decompress z input _ := match input with
    | [0x28, 0xB5, 0x2F, 0xFD, 0x00, b] =>
      if 2 ^ z < zstdDescriptor b then ⟨.error .windowTooLarge, z, 0, []⟩ else ⟨.more, z, 6, []⟩
    | _ => ⟨.error .other, z, 0, []⟩
  used_le z input room := by
    split
    · split_ifs <;> simp
    · exact Nat.zero_le _
  out_le z input room := by
    split
    · split_ifs <;> exact Nat.zero_le _
    · exact Nat.zero_le _
  createDCtx := some 27
  setWindowLogMax _ n := some n
  resetDCtx z := some z
  CCtx := Unit
  createCCtx := some ()
  setLevel _ _ := some ()
  setChecksumFlag _ := some ()
  resetCCtx _ := some ()
  compress _ _ _ _ := ⟨.error .other, (), 0, []⟩
  compress_used_le := noCompress_used_le
  compress_out_le := noCompress_out_le

def headerWindows : ZstdWindows headerZstd where
  limit z := z
  Declares _ input W := ∃ b, input = zstdHeader b ∧ W = zstdDescriptor b
  settable _ _ _ := rfl
  limit_set h := (Option.some.inj h).symm
  limit_kept z input room := by
    unfold headerZstd
    dsimp only
    split
    · split_ifs <;> rfl
    · rfl
  refuses := by
    rintro (z : ℕ) input W room ⟨b, rfl, rfl⟩
    change (if 2 ^ z < zstdDescriptor b then (⟨.error .windowTooLarge, z, 0, []⟩ :
      FrameStep ℕ ZstdError) else ⟨.more, z, 6, []⟩).result = _ ↔ 2 ^ z < zstdDescriptor b
    split_ifs with h <;> simp [h]

/-! ## What the loop keeps of the library -/

variable {ε : Type} {L : FrameLib ε} {fail : ε → Status} {all : FrameStep L.State ε → ℕ → Bool}
  {mode : Flush} {P : L.State → Prop}

/-- A property of the library's context that its calls keep. -/
def FrameLib.Keeps (L : FrameLib ε) (P : L.State → Prop) : Prop :=
  ∀ z input room, P z → P (L.decompress z input room).state

theorem feedHeld_keeps (hP : L.Keeps P) {z : L.State} (hz : P z) (p : List UInt8) :
    P (feedHeld fail all z p).2 := by
  unfold feedHeld
  dsimp only
  split <;> exact hP z p 0 hz

theorem framesBetween_keeps {feed : L.State → List UInt8 → Status × L.State}
    (hfeed : ∀ {z}, P z → ∀ p, P (feed z p).2) (f : Frames) {z : L.State} (hz : P z) (w : Window) :
    P (framesBetween feed f z w mode).2.2.1 := by
  unfold framesBetween
  split
  · exact hz
  · exact hz
  · by_cases hconcat : f.flags &&& decConcatMembers = 0
    · rw [if_pos hconcat]
      exact hz
    rw [if_neg hconcat]
    by_cases hheld : f.held = []
    · rw [if_pos hheld]
      dsimp only
      split_ifs <;> exact hz
    rw [if_neg hheld]
    split
    · exact hz
    · next held n _ =>
      by_cases hfour : held.length = 4
      · rw [if_pos hfour]
        have hfed := hfeed hz held
        split
        · next heq => rwa [heq] at hfed
        · next heq => rwa [heq] at hfed
      · rw [if_neg hfour]
        split_ifs <;> exact hz

theorem framesStalled_keeps (hP : L.Keeps P) (f : Frames) {z : L.State} (hz : P z) (i o : ℕ) :
    P (framesStalled (frameProbe fail) f z i o mode).2.2 := by
  have hprobe : P (frameProbe fail z).state := by
    unfold frameProbe
    dsimp only
    split <;> exact hP z [] 1 hz
  unfold framesStalled
  dsimp only
  split_ifs
  all_goals first
    | exact hz
    | exact hprobe
    | (split <;> exact hprobe)

/-- Every turn of the loop keeps it. -/
theorem framedStep_keeps (hP : L.Keeps P) (x : FramedState L × Window) (hx : P x.1.dctx) :
    Turn (fun y => P y.1.dctx) (fun r => P r.2.1.dctx)
      (framedStep fail (feedHeld fail all) mode x) := by
  unfold framedStep
  cases framesPay x.1.frames x.2 with
  | none => exact hx
  | some y =>
    unfold frameTurn
    dsimp only
    by_cases hbody : y.1.state ≠ .body
    · rw [if_pos hbody]
      have hfeed : ∀ {z}, P z → ∀ p, P (feedHeld fail all z p).2 := fun hz p =>
        feedHeld_keeps hP hz p
      have hkeeps : P (framesBetween (feedHeld fail all) y.1 x.1.dctx y.2 mode).2.2.1 :=
        framesBetween_keeps hfeed y.1 hx y.2
      split
      · next heq => rwa [heq] at hkeeps
      · next heq => rwa [heq] at hkeeps
    · rw [if_neg hbody]
      have hstep := hP x.1.dctx y.2.input y.2.room hx
      split
      · exact hstep
      · exact hstep
      · by_cases hstill : (L.decompress x.1.dctx y.2.input y.2.room).used = 0 ∧
            (L.decompress x.1.dctx y.2.input y.2.room).out = []
        · rw [if_pos hstill]
          have hkeeps : P (framesStalled (frameProbe fail) y.1 _ y.2.input.length y.2.room
              mode).2.2 := framesStalled_keeps hP y.1 hstep y.2.input.length y.2.room
          split
          · next heq => rwa [heq] at hkeeps
          · next heq => rwa [heq] at hkeeps
        · rw [if_neg hstill]
          exact hstep

theorem framedProcess_keeps (hP : L.Keeps P) {s : FramedState L} (hs : P s.dctx) (w : Window) :
    P (framedProcess fail (feedHeld fail all) s w mode).2.1.dctx :=
  runLoop_keeps (fun x : FramedState L × Window => P x.1.dctx)
    (fun r : Status × FramedState L × Window => P r.2.1.dctx)
    (fun x hx => framedStep_keeps hP x hx) (fun _ hx => hx) hs _

/-- A turn that comes to call the library in the body of a frame, with `w` before it. -/
def FramedState.Calls (s : FramedState L) (v : Window) (f : Frames) (w : Window) : Prop :=
  framesPay s.frames v = some (f, w) ∧ f.state = .body

theorem framedStep_error {feed : L.State → List UInt8 → Status × L.State} {s : FramedState L}
    {v w : Window} {f : Frames} {code : ε} (h : s.Calls v f w)
    (herr : (L.decompress s.dctx w.input w.room).result = .error code) :
    ∃ t, framedStep fail feed mode (s, v) = .inr (fail code, t, w) := by
  unfold framedStep
  rw [h.1]
  dsimp only
  unfold frameTurn
  dsimp only
  rw [if_neg (by simp [h.2]), herr]
  exact ⟨_, rfl⟩

/-! ## The decoder's limit over a session -/

variable {Z : Zstd}

/-- The loop of a decoder's call. -/
def zstdTurn (s : ZstdDecoder Z) (mode : Flush) :
    FramedState Z.toFrameLib × Window → FramedNext Z.toFrameLib :=
  framedStep (zstdError false s.maxOutput) (zstdFeedHeld s.maxOutput) mode

theorem zstdTurn_error (s : ZstdDecoder Z) (mode : Flush) {t : FramedState Z.toFrameLib}
    {v w : Window} {f : Frames} {code : ZstdError} (h : t.Calls v f w)
    (herr : (Z.decompress t.dctx w.input w.room).result = .error code) :
    ∃ t', zstdTurn s mode (t, v) = .inr (zstdError false s.maxOutput code, t', w) :=
  framedStep_error h herr

theorem ZstdWindows.keeps (V : ZstdWindows Z) (n : ℕ) :
    Z.toFrameLib.Keeps fun z => V.limit z = n :=
  fun z input room hz => (V.limit_kept z input room).trans hz

theorem zstdDecoderProcess_limit (V : ZstdWindows Z) (s : ZstdDecoder Z) (w : Window)
    (mode : Flush) : V.limit (zstdDecoderProcess s w mode).2.1.dctx = V.limit s.dctx ∧
      (zstdDecoderProcess s w mode).2.1.maxOutput = s.maxOutput :=
  ⟨framedProcess_keeps (V.keeps (V.limit s.dctx)) rfl w, rfl⟩

/-- The library is under the limit that the caller's options mean. -/
structure ZstdWindows.Set (V : ZstdWindows Z) (d : Decoder (zstdCodec Z)) : Prop where
  limit : V.limit d.state.dctx = zstdWindowLog d.opts.maxOutput
  maxOutput : d.state.maxOutput = d.opts.maxOutput

theorem zstdWindow_set (V : ZstdWindows Z) {s s' : ZstdDecoder Z}
    (h : zstdWindow s = (.ok, s')) :
    V.limit s'.dctx = zstdWindowLog s.maxOutput ∧ s'.maxOutput = s.maxOutput := by
  unfold zstdWindow at h
  split at h
  · cases h
  · next hset =>
    cases h
    exact ⟨V.limit_set hset, rfl⟩

theorem zstdWindowLog_range (maxOutput : UInt64) :
    10 ≤ zstdWindowLog maxOutput ∧ zstdWindowLog maxOutput ≤ 31 := by
  unfold zstdWindowLog zstdWindowLogFloor zstdWindowLogDefault
  split_ifs <;> omega

/-- A reset leaves the state alone, or sets the limit. -/
theorem zstdDecoderReset_limit (V : ZstdWindows Z) (s : ZstdDecoder Z) (o : DecoderOpts) :
    (∃ st, st ≠ .ok ∧ zstdDecoderReset s o = (st, s)) ∨
    ∃ s', zstdDecoderReset s o = (.ok, s') ∧ V.limit s'.dctx = zstdWindowLog o.maxOutput ∧
      s'.maxOutput = o.maxOutput := by
  unfold zstdDecoderReset
  cases hreset : Z.resetDCtx s.dctx with
  | none => exact .inl ⟨.errInternal, by simp, rfl⟩
  | some z =>
    obtain ⟨hlo, hhi⟩ := zstdWindowLog_range o.maxOutput
    obtain ⟨z', hset⟩ := Option.isSome_iff_exists.mp (V.settable hreset hlo hhi)
    refine .inr ⟨⟨⟨z', framesInit .zstd o.flags⟩, o.maxOutput⟩, ?_, V.limit_set hset, rfl⟩
    dsimp only
    rw [zstdWindow]
    dsimp only
    rw [hset]

theorem ZstdWindows.Set.next {V : ZstdWindows Z} {s : Session (zstdCodec Z)} (h : V.Set s.dec)
    (op : DecoderOp) : V.Set (s.next op).dec := by
  cases op with
  | process buf mode =>
    have hdec : (s.next (.process buf mode)).dec = (decoderCall s.dec buf mode).dec := rfl
    rw [hdec]
    rcases decoderCall_cases s.dec buf mode with ⟨hsame, -⟩ | ⟨-, -, -, hcall⟩
    · rw [hsame]
      exact h
    · obtain ⟨hlimit, hmax⟩ := zstdDecoderProcess_limit V s.dec.state
        (s.dec.shown buf).window mode
      rw [hcall]
      exact ⟨hlimit.trans h.limit, hmax.trans h.maxOutput⟩
  | reset opts =>
    rw [Session.next_reset_dec]
    unfold decoderReset
    dsimp only
    split_ifs
    · exact h
    · exact h
    · obtain ⟨st, hst, hreset⟩ | ⟨s', hreset, hset, hmax⟩ :=
        zstdDecoderReset_limit V s.dec.state (copyDecoderOpts (opts.getD s.dec.opts))
      · simp only [zstdCodec, hreset]
        exact h
      · simp only [zstdCodec, hreset]
        exact ⟨hset, hmax⟩

/-- In every session the library is under the limit that the options in force mean. -/
theorem zstdWindows_reached (V : ZstdWindows Z) {lookup : CodecId → Option CodecVtable}
    {opts : DecoderOpts} {d : Decoder (zstdCodec Z)}
    (hnew : decoderNew lookup opts = .ok ⟨zstdCodec Z, d⟩) {s : Session (zstdCodec Z)}
    (h : Session.Reached d s) : V.Set s.dec := by
  refine h.invariant (fun s => V.Set s.dec) ?_ fun s op hs _ => hs.next op
  obtain ⟨-, hstate⟩ := decoderNew_ok hnew
  change zstdDecoderNew Z d.opts = .ok d.state at hstate
  unfold zstdDecoderNew at hstate
  cases hz : Z.createDCtx with
  | none => simp [hz] at hstate
  | some z =>
    rw [hz] at hstate
    dsimp only at hstate
    split at hstate
    · next heq =>
      obtain ⟨hlimit, hmax⟩ := zstdWindow_set V heq
      obtain rfl := Except.ok.inj hstate
      exact ⟨hlimit, hmax⟩
    · cases hstate

/-! ## The refusal and its cause -/

/-- The windows that both limits allow. -/
def zstdAllowed (maxOutput : UInt64) : ℕ :=
  if maxOutput = 0 then zstdLibraryWindow else min (zstdCallerWindow maxOutput) zstdLibraryWindow

/-- What a caller under `maxOutput` is told of a frame that declares `W`: it is refused for its
window only over the limits, and the status names the limit it is over. `refused` says that the
library refuses it, and `returned` what the call returns. -/
structure ZstdClassifies (maxOutput : UInt64) (W : ℕ) (refused : Prop) (returned : Status → Prop) :
    Prop where
  accepts : W ≤ zstdAllowed maxOutput → ¬ refused
  returns : refused → ∃ st, returned st
  outputLimit : refused → returned .errOutputLimit →
    maxOutput ≠ 0 ∧ zstdCallerWindow maxOutput < W
  unsupported : refused → (maxOutput ≠ 0 → W ≤ zstdCallerWindow maxOutput) →
    ∀ st, returned st → st = .errUnsupported

theorem zstdClassifies_iff {maxOutput : UInt64} {W : ℕ} {refused : Prop} {returned : Status → Prop}
    (hrefused : refused ↔ 2 ^ zstdWindowLog maxOutput < W)
    (hreturned : refused → ∀ st, returned st ↔ st = zstdError false maxOutput .windowTooLarge) :
    ZstdClassifies maxOutput W refused returned ↔
      (maxOutput = 0 ∨ W ≤ zstdLibraryWindow ∨ maxOutput.toNat < W) := by
  obtain ⟨hle, hzero, hmin⟩ := zstdWindowLog_spec maxOutput
  have hfloor : 2 ^ 23 ≤ zstdCallerWindow maxOutput := Nat.le_max_right ..
  have hmax : maxOutput.toNat ≤ zstdCallerWindow maxOutput := Nat.le_max_left ..
  have hlib : (2 : ℕ) ^ 23 ≤ zstdLibraryWindow := by norm_num [zstdLibraryWindow]
  constructor
  · intro h
    by_contra hband
    rw [not_or, not_or, Nat.not_le, Nat.not_lt] at hband
    obtain ⟨h0, hover, hunder⟩ := hband
    have hr : refused := hrefused.mpr (hle.trans_lt hover)
    have hst : returned .errOutputLimit := (hreturned hr _).mpr (if_pos h0).symm
    have := (h.outputLimit hr hst).2
    omega
  · intro hcond
    have hcause (hr : refused) (h0 : maxOutput ≠ 0) : zstdCallerWindow maxOutput < W := by
      have hlt := hrefused.mp hr
      rcases hcond with h | h | h
      · exact absurd h h0
      · omega
      · exact Nat.max_lt.mpr ⟨h, by omega⟩
    refine ⟨fun hW hr => ?_, fun hr => ⟨_, (hreturned hr _).mpr rfl⟩, fun hr hst => ?_,
      fun hr hW st hst => ?_⟩
    · have hlt := hrefused.mp hr
      unfold zstdAllowed at hW
      split_ifs at hW with h0
      · have := hzero h0
        omega
      · omega
    · have hst := (hreturned hr _).mp hst
      by_cases h0 : maxOutput = 0
      · rw [zstdError, if_neg (by simp [h0])] at hst
        cases hst
      · exact ⟨h0, hcause hr h0⟩
    · rw [(hreturned hr st).mp hst]
      by_cases h0 : maxOutput = 0
      · exact if_neg (by simp [h0])
      · have := hcause hr h0
        have := hW h0
        omega

/-- In every session of the decoder, at every turn of a call that comes to a frame header, a window
over the limits is refused with the status of the limit it is over, except in the band over
libzstd's own ceiling that the caller's limit allows. -/
theorem zstdWindow_classified (V : ZstdWindows Z) {lookup : CodecId → Option CodecVtable}
    {opts : DecoderOpts} {d : Decoder (zstdCodec Z)}
    (hnew : decoderNew lookup opts = .ok ⟨zstdCodec Z, d⟩) {s : Session (zstdCodec Z)}
    (hs : Session.Reached d s) {w v w' : Window} {mode : Flush} {t : FramedState Z.toFrameLib}
    (hreach : Reaches (zstdTurn s.dec.state mode)
      (ZstdDecoder.toFramedState s.dec.state, w) (t, v))
    {f : Frames} (hcalls : t.Calls v f w') {W : ℕ} (hW : V.Declares t.dctx w'.input W) :
    ZstdClassifies s.dec.opts.maxOutput W
        ((Z.decompress t.dctx w'.input w'.room).result = .error .windowTooLarge)
        (fun st => ∃ t' v', Returns (zstdTurn s.dec.state mode)
          (ZstdDecoder.toFramedState s.dec.state, w) (st, t', v')) ↔
      (s.dec.opts.maxOutput = 0 ∨ W ≤ zstdLibraryWindow ∨ s.dec.opts.maxOutput.toNat < W) := by
  have hset := zstdWindows_reached V hnew hs
  have hlimit : V.limit t.dctx = zstdWindowLog s.dec.opts.maxOutput := by
    refine hreach.invariant (fun x : FramedState Z.toFrameLib × Window =>
      V.limit x.1.dctx = zstdWindowLog s.dec.opts.maxOutput) (fun x x' hx hturn => ?_) hset.limit
    have hkeeps : Turn _ _ (zstdTurn s.dec.state mode x) := framedStep_keeps (V.keeps _) x hx
    rw [hturn] at hkeeps
    exact hkeeps
  refine zstdClassifies_iff ?_ fun hr st => ?_
  · rw [V.refuses _ hW, hlimit]
  · obtain ⟨t', hturn⟩ := zstdTurn_error s.dec.state mode hcalls hr
    have hreturns := Returns.of_reaches hreach (.done hturn)
    rw [hset.maxOutput] at hreturns
    constructor
    · rintro ⟨t'', v'', hst⟩
      exact congrArg Prod.fst (hst.unique hreturns)
    · rintro rfl
      exact ⟨_, _, hreturns⟩

def zstdOnly : CodecId → Option CodecVtable := fun _ => some (zstdCodec headerZstd)

def windowOpts (maxOutput : UInt64) : DecoderOpts where
  structSize := 32
  codec := codecZstd
  maxOutput := maxOutput
  maxRatio := 0
  flags := 0
  expectedSize := 0

def windowState (maxOutput : UInt64) : ZstdDecoder headerZstd where
  dctx := zstdWindowLog maxOutput
  frames := framesInit .zstd 0
  maxOutput := maxOutput

def windowDecoder (maxOutput : UInt64) : Decoder (zstdCodec headerZstd) where
  state := windowState maxOutput
  opts := windowOpts maxOutput
  finished := false
  totalIn := 0
  totalOut := 0

def headerWindow (b : UInt8) : Window := ⟨zstdHeader b, 1, []⟩

theorem windowState_calls (maxOutput : UInt64) (w : Window) :
    FramedState.Calls (windowState maxOutput).toFramedState w (framesInit .zstd 0) w := ⟨rfl, rfl⟩

/-- A window of 32 MiB under a limit of 16 MiB. -/
theorem zstdWindow_classified_over : ZstdClassifies 0x1000000 (zstdDescriptor 0x78)
      ((headerZstd.decompress (windowState 0x1000000).dctx (headerWindow 0x78).input 1).result =
        .error .windowTooLarge)
      (fun st => ∃ t v, Returns (zstdTurn (windowState 0x1000000) .run)
        ((windowState 0x1000000).toFramedState, headerWindow 0x78) (st, t, v)) ↔
    ((0x1000000 : UInt64) = 0 ∨ zstdDescriptor 0x78 ≤ zstdLibraryWindow ∨
      (0x1000000 : UInt64).toNat < zstdDescriptor 0x78) :=
  zstdWindow_classified headerWindows
    (show decoderNew zstdOnly (windowOpts 0x1000000) = .ok ⟨_, windowDecoder 0x1000000⟩ from rfl)
    .new (w := headerWindow 0x78) .refl (windowState_calls 0x1000000 _)
    ⟨0x78, rfl, rfl⟩

/-- A window of 256 MiB under a limit of 1 GiB is refused for the caller's limit. -/
theorem zstdWindow_band :
    ¬ ∀ (Z : Zstd) (V : ZstdWindows Z) (lookup : CodecId → Option CodecVtable) (opts : DecoderOpts)
      (d : Decoder (zstdCodec Z)) (_ : decoderNew lookup opts = .ok ⟨zstdCodec Z, d⟩)
      (s : Session (zstdCodec Z)) (_ : Session.Reached d s) (w v w' : Window) (mode : Flush)
      (t : FramedState Z.toFrameLib) (_ : Reaches (zstdTurn s.dec.state mode)
        (ZstdDecoder.toFramedState s.dec.state, w) (t, v))
      (f : Frames) (_ : t.Calls v f w') (W : ℕ) (_ : V.Declares t.dctx w'.input W),
      ZstdClassifies s.dec.opts.maxOutput W
        ((Z.decompress t.dctx w'.input w'.room).result = .error .windowTooLarge)
        (fun st => ∃ t' v', Returns (zstdTurn s.dec.state mode)
          (ZstdDecoder.toFramedState s.dec.state, w) (st, t', v')) := by
  intro hall
  have hcalls := windowState_calls 0x40000000 (headerWindow 0x90)
  have hclass := hall headerZstd headerWindows zstdOnly (windowOpts 0x40000000)
    (windowDecoder 0x40000000) rfl _ .new _ _ _ .run _ .refl _ hcalls (zstdDescriptor 0x90)
    ⟨0x90, rfl, rfl⟩
  have hrefused : (headerZstd.decompress (windowState 0x40000000).dctx
      (headerWindow 0x90).input (headerWindow 0x90).room).result = .error .windowTooLarge := by
    refine (headerWindows.refuses _ ⟨0x90, rfl, rfl⟩).mpr ?_
    exact (zstdWindowLog_spec 0x40000000).1.trans_lt (by decide)
  obtain ⟨t', hturn⟩ := zstdTurn_error (windowState 0x40000000) .run hcalls hrefused
  have hover := (hclass.outputLimit hrefused ⟨t', _, .done hturn⟩).2
  exact absurd hover (by decide)

end Zukomp
