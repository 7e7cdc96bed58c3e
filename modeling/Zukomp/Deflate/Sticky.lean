import Zukomp.Deflate.Masking

/-! # What follows a data error

Nothing latches an error: that a zlib or gzip decoder stays refused follows from the
state the error left it in. A failed zlib header, engine or trailer fails again without
reading anything. The gzip header parser does not: it has moved past the byte it rejected.
-/

namespace Zukomp

open Library

/-- The statuses that reject the data of a stream. -/
def Status.isDataError : Status → Bool
  | .errInvalidData | .errChecksum | .errUnsupported => true
  | _ => false

theorem Status.isError_of_isDataError {st : Status} (h : st.isDataError = true) :
    st.isError = true := by
  cases st <;> first | rfl | cases h

/-- What `mz_inflate` is assumed to do after a data error, which it answers for good, and
of its reset, which only a NULL stream fails. -/
structure InflateErrors (E : MzStream) where
  Failed : E.State → Prop
  fails : ∀ z input room flush, (E.process z input room flush).status = .dataError →
    Failed (E.process z input room flush).state
  failed : ∀ {z} input room flush, Failed z →
    E.process z input room flush = ⟨.dataError, (E.process z input room flush).state, 0, []⟩
  reset : ∀ z, (E.reset z).1 = .ok

/-- The reference engine fails for good. -/
def refInflateErrors (c : Progressive UInt8) : InflateErrors (refInflate c) where
  Failed z := z.failed = true
  fails z input room flush h := by
    simp only [refInflate, refInflateStep] at h ⊢
    split_ifs at h ⊢ <;> rfl
  failed input room flush h := by
    simp [refInflate, refInflateStep, h]
  reset _ := rfl

variable {E : MzStream}

/-- A decoder of the family with a trailer to read. -/
structure DeflateState.Wrapped (s : DeflateState E) : Prop where
  decoder : s.encoder = false
  wrap : s.wrap ≠ .none
  trailer : 0 < s.tailLen

variable (K : InflateErrors E)

/-- A decoder whose error repeats itself: a zlib header, an engine or a trailer that failed. -/
inductive Dead (s : DeflateState E) : Prop
  | header (state : s.state = .header) (wrap : s.wrap ≠ .gzip) (read : s.hdrLen ≤ s.hdrPos)
      (check : (zlibCheckHeader s.hdr).isDataError = true)
  | body (state : s.state = .body) (failed : K.Failed s.mz)
  | trailer (state : s.state = .trailer) (read : s.tailLen ≤ s.tailPos)
      (check : (checkTail s).isDataError = true)

/-- A decoder with input still to read before its stream can end. -/
inductive Short (s : DeflateState E) : Prop
  | header (state : s.state = .header)
  | body (state : s.state = .body)
  | trailer (state : s.state = .trailer) (read : s.tailPos < s.tailLen)

theorem zlibCheckHeader_isDataError {hdr : List UInt8} (h : zlibCheckHeader hdr ≠ .ok) :
    (zlibCheckHeader hdr).isDataError = true := by
  unfold zlibCheckHeader at h ⊢
  dsimp only at h ⊢
  split_ifs at h ⊢ <;> first | rfl | exact absurd rfl h

theorem checkTail_isDataError {s : DeflateState E} (h : checkTail s ≠ .ok) :
    (checkTail s).isDataError = true := by
  unfold checkTail at h ⊢
  split_ifs at h ⊢ <;> first | rfl | exact absurd rfl h

theorem wrapped_new {wrap : WrapKind} (hwrap : wrap ≠ .none) {level : ℤ} {flags : UInt32}
    {s : DeflateState E} (h : deflateNew E wrap false level flags = .ok s) : s.Wrapped := by
  unfold deflateNew at h
  dsimp only at h
  split at h
  · cases h
    refine ⟨rfl, hwrap, ?_⟩
    cases wrap with
    | none => exact absurd rfl hwrap
    | zlib => exact Nat.succ_pos 3
    | gzip => exact Nat.succ_pos 7
  · cases h

/-! ## The state an error leaves -/

/-- Where a data error leaves a decoder: dead, behind a byte its header parser rejected, or
in a body whose engine has not failed. -/
inductive Rejected (s : DeflateState E) : Prop
  | dead (dead : Dead K s)
  | header (state : s.state = .header) (wrap : s.wrap = .gzip)
  | body (state : s.state = .body) (engine : ¬ K.Failed s.mz)

variable {K}

theorem Rejected.dead_or_short {s : DeflateState E} (h : Rejected K s) : Dead K s ∨ Short s := by
  cases h with
  | dead dead => exact .inl dead
  | header state wrap => exact .inr (.header state)
  | body state engine => exact .inr (.body state)

/-- What a turn of a wrapped decoder leads to. -/
def Rejects (K : InflateErrors E) : Next E → Prop :=
  Turn (fun y => y.1.Wrapped)
    (fun r => r.2.1.Wrapped ∧ (r.1.isDataError = true → Rejected K r.2.1))

theorem rejects_return {s : DeflateState E} (h : s.Wrapped) {st : Status}
    (hst : st.isDataError = false) (w : Window) : Rejects K (.inr (st, s, w)) :=
  ⟨h, fun he => by rw [hst] at he; cases he⟩

theorem missing_isDataError (mode : Flush) : (missing mode).isDataError = false := by
  unfold missing
  split_ifs <;> rfl

theorem headerStep_rejects {s : DeflateState E} (h : s.Wrapped) (hs : s.state = .header)
    (w : Window) (mode : Flush) : Rejects K (headerStep s w mode) := by
  obtain ⟨henc, hwrap, htail⟩ := h
  unfold headerStep
  rw [if_neg (by simp [henc])]
  split_ifs with hgzip hpos hcheck
  · cases w.input with
    | nil => exact rejects_return ⟨henc, hwrap, htail⟩ (missing_isDataError mode) w
    | cons b rest =>
      dsimp only
      split
      · exact ⟨henc, hwrap, htail⟩
      · exact ⟨henc, hwrap, htail⟩
      · exact ⟨⟨henc, hwrap, htail⟩, fun _ => .header hs hgzip⟩
  · cases w.input with
    | nil => exact rejects_return ⟨henc, hwrap, htail⟩ (missing_isDataError mode) w
    | cons b rest => exact ⟨henc, hwrap, htail⟩
  · exact ⟨⟨henc, hwrap, htail⟩,
      fun _ => .dead (.header hs hgzip (Nat.le_of_not_lt hpos) (zlibCheckHeader_isDataError hcheck))⟩
  · exact ⟨henc, hwrap, htail⟩

theorem afterEngine_wrapped {s : DeflateState E} (h : s.Wrapped) (w : Window)
    (r : MzStep E.State) : (afterEngine s w r).Wrapped := by
  obtain ⟨henc, hwrap, htail⟩ := h
  refine ⟨by simp [henc], by simp [hwrap], ?_⟩
  unfold afterEngine
  dsimp only
  split_ifs <;> exact htail

theorem bodyStep_rejects {s : DeflateState E} (h : s.Wrapped) (hs : s.state = .body)
    (w : Window) (mode : Flush) : Rejects K (bodyStep s w mode) := by
  have hafter := afterEngine_wrapped h w (engineCall s w mode)
  have hbody (w' : Window) (st : Status) :
      Rejects K (.inr (st, afterEngine s w (engineCall s w mode), w')) := by
    refine ⟨hafter, fun _ => ?_⟩
    by_cases hfailed : K.Failed (engineCall s w mode).state
    · exact .dead (.body (by simp [hs]) (by simpa using hfailed))
    · exact .body (by simp [hs]) (by simpa using hfailed)
  unfold bodyStep
  rw [if_neg (by simp [h.decoder])]
  dsimp only
  split_ifs with hend hwrap hbad hidle
  · exact ⟨hafter.decoder, hafter.wrap, hafter.trailer⟩
  · exact absurd hwrap (by simp [h.wrap])
  · exact hbody _ _
  · exact hbody _ _
  · exact hafter

theorem trailerStep_rejects {s : DeflateState E} (h : s.Wrapped) (hs : s.state = .trailer)
    (w : Window) (mode : Flush) : Rejects K (trailerStep s w mode) := by
  obtain ⟨henc, hwrap, htail⟩ := h
  unfold trailerStep
  rw [if_neg (by simp [henc])]
  split_ifs with hpos hcheck
  · cases w.input with
    | nil => exact rejects_return ⟨henc, hwrap, htail⟩ (missing_isDataError mode) w
    | cons b rest => exact ⟨henc, hwrap, htail⟩
  · exact ⟨⟨henc, hwrap, htail⟩,
      fun _ => .dead (.trailer hs (Nat.le_of_not_lt hpos) (checkTail_isDataError hcheck))⟩
  · exact ⟨henc, hwrap, htail⟩

theorem nextMember_rejects {s : DeflateState E} (h : s.Wrapped) (hc : concatenates s = true)
    (w : Window) (held : Bool) : Rejects K (nextMember s w held) := by
  obtain ⟨henc, hwrap, htail⟩ := h
  simp only [concatenates, decide_eq_true_eq] at hc
  unfold nextMember
  rcases deflateReset_decoder henc with ⟨mz, -, hr⟩ | ⟨mz, hbad, -⟩
  · rw [hr, if_pos hc.1]
    dsimp only
    split_ifs
    · split
      · exact ⟨henc, hwrap, htail⟩
      · exact ⟨⟨henc, hwrap, htail⟩, fun _ => .header (by simp [firstState, hc.1]) hc.1⟩
    · exact ⟨henc, hwrap, htail⟩
  · have hreset := K.reset s.mz
    rw [hbad] at hreset
    cases hreset

theorem finishMember_rejects {s : DeflateState E} (h : s.Wrapped) (w : Window) :
    Rejects K (finishMember s w) := by
  obtain ⟨henc, hwrap, htail⟩ := h
  unfold finishMember
  dsimp only
  split_ifs <;> exact ⟨⟨henc, hwrap, htail⟩, fun he => by cases he⟩

theorem memberEndStep_rejects {s : DeflateState E} (h : s.Wrapped) (w : Window) (mode : Flush) :
    Rejects K (memberEndStep s w mode) := by
  have hkeep (st : Status) (hst : st.isDataError = false) (state : WrapState) (probe : Bool)
      (w : Window) : Rejects K (.inr (st, { s with probeMagic := probe, state := state }, w)) :=
    ⟨⟨h.decoder, h.wrap, h.trailer⟩, fun he => by rw [hst] at he; cases he⟩
  unfold memberEndStep
  cases w.input with
  | nil =>
    dsimp only
    split_ifs
    · exact rejects_return h rfl w
    · exact finishMember_rejects h w
  | cons b rest =>
    cases rest with
    | nil =>
      dsimp only
      split_ifs with hc hprobe hb hmode hb
      · exact finishMember_rejects h w
      · exact hkeep _ rfl _ _ w
      · exact hkeep _ rfl _ _ w
      · exact hkeep _ rfl _ _ _
      · exact hkeep _ rfl _ _ w
      · exact nextMember_rejects h (by simpa using hc) w true
    | cons c rest =>
      dsimp only
      split_ifs with hc hprobe hb hmagic hb
      · exact finishMember_rejects h w
      · exact hkeep _ rfl _ _ w
      · exact hkeep _ rfl _ _ w
      · exact nextMember_rejects h (by simpa using hc) w false
      · exact hkeep _ rfl _ _ w
      · exact nextMember_rejects h (by simpa using hc) w true

theorem deflateStep_rejects {s : DeflateState E} (h : s.Wrapped) (w : Window) (mode : Flush) :
    Rejects K (deflateStep mode (s, w)) := by
  unfold deflateStep
  dsimp only
  cases hs : s.state with
  | done => exact rejects_return h rfl w
  | header => exact headerStep_rejects h hs w mode
  | body => exact bodyStep_rejects h hs w mode
  | memberEnd => exact memberEndStep_rejects h w mode
  | trailer => exact trailerStep_rejects h hs w mode

/-- A data error leaves the decoder rejected, wherever in the stream it comes from. -/
theorem deflateProcess_rejects (K : InflateErrors E) {s : DeflateState E} (h : s.Wrapped)
    (w : Window) (mode : Flush) :
    (deflateProcess s w mode).2.1.Wrapped ∧
      ((deflateProcess s w mode).1.isDataError = true → Rejected K (deflateProcess s w mode).2.1) :=
  runLoop_rule (fun x : DeflateState E × Window => x.1.Wrapped)
    (fun r : Status × DeflateState E × Window =>
      r.2.1.Wrapped ∧ (r.1.isDataError = true → Rejected K r.2.1)) deflateMeasure
    (fun x hx => by
      have hprog := deflateStep_progresses mode x
      have hrej := deflateStep_rejects (K := K) hx x.2 mode
      cases hstep : deflateStep mode x with
      | inl y =>
        rw [hstep] at hprog hrej
        exact ⟨hrej, hprog.2⟩
      | inr r =>
        rw [hstep] at hrej
        exact hrej)
    h (Nat.lt_succ_self _)

/-! ## After the error -/

/-- A dead decoder repeats its error without moving, whatever it is offered. -/
theorem deflateProcess_dead {s : DeflateState E} (h : s.Wrapped) (hd : Dead K s) (w : Window)
    (mode : Flush) : ∃ st s', deflateProcess s w mode = (st, s', w) ∧ st.isDataError = true ∧
      s'.Wrapped ∧ Dead K s' := by
  have hreturn {st : Status} {s' : DeflateState E}
      (hstep : deflateStep mode (s, w) = .inr (st, s', w)) :
      deflateProcess s w mode = (st, s', w) :=
    (deflateProcess_returns s w mode).unique (.done hstep)
  cases hd with
  | header state wrap read check =>
    refine ⟨_, s, hreturn ?_, check, h, .header state wrap read check⟩
    have hne : zlibCheckHeader s.hdr ≠ .ok := fun hok => by rw [hok] at check; cases check
    simp only [deflateStep, state, headerStep]
    rw [if_neg (by simp [h.decoder]), if_neg wrap, if_neg (by omega), if_pos hne]
  | body state failed =>
    have hcall := K.failed (w.input.take mzClamp) (min w.room mzClamp) (engineFlush s mode) failed
    have hfails := K.fails s.mz (w.input.take mzClamp) (min w.room mzClamp) (engineFlush s mode)
      (by rw [hcall])
    refine ⟨.errInvalidData, afterEngine s w (engineCall s w mode), hreturn ?_, rfl,
      afterEngine_wrapped h w _, .body (by simp [state]) (by simpa [engineCall] using hfails)⟩
    have hr : engineCall s w mode = ⟨.dataError, (engineCall s w mode).state, 0, []⟩ := hcall
    simp only [deflateStep, state, bodyStep]
    rw [if_neg (by simp [h.decoder]), hr]
    simp [fromMz]
  | trailer state read check =>
    refine ⟨_, s, hreturn ?_, check, h, .trailer state read check⟩
    have hne : checkTail s ≠ .ok := fun hok => by rw [hok] at check; cases check
    simp only [deflateStep, state, trailerStep]
    rw [if_neg (by simp [h.decoder]), if_neg (by omega), if_pos hne]

/-- What a turn of a short decoder leads to when there is nothing to read. -/
def Waits (K : InflateErrors E) : Next E → Prop :=
  Turn (fun y => y.1.Wrapped ∧ Short y.1 ∧ y.2.input = [])
    (fun r => r.2.1.Wrapped ∧ (Dead K r.2.1 ∨ Short r.2.1) ∧ r.1 ≠ .streamEnd)

theorem missing_ne_streamEnd (mode : Flush) : missing mode ≠ .streamEnd := by
  unfold missing
  split_ifs <;> simp

theorem headerStep_waits {s : DeflateState E} (h : s.Wrapped) (hs : s.state = .header)
    {w : Window} (hw : w.input = []) (mode : Flush) : Waits K (headerStep s w mode) := by
  have hmissing := missing_ne_streamEnd mode
  unfold headerStep
  rw [if_neg (by simp [h.decoder]), hw]
  split_ifs with hgzip hpos hcheck
  · exact ⟨h, .inr (.header hs), hmissing⟩
  · exact ⟨h, .inr (.header hs), hmissing⟩
  · have hdata := zlibCheckHeader_isDataError hcheck
    refine ⟨h, .inl (.header hs hgzip (Nat.le_of_not_lt hpos) hdata), ?_⟩
    intro (hend : zlibCheckHeader s.hdr = .streamEnd)
    rw [hend] at hdata
    cases hdata
  · exact ⟨⟨h.decoder, h.wrap, h.trailer⟩, .body rfl, hw⟩

theorem fromMz_ne_streamEnd {st : MzStatus} (h : st ≠ .streamEnd) : fromMz st ≠ .streamEnd := by
  cases st <;> simp_all [fromMz]

theorem stalled_ne_streamEnd (s : DeflateState E) (w : Window) (mode : Flush) :
    stalled s w mode ≠ .streamEnd := by
  unfold stalled
  split_ifs <;> simp

theorem bodyStep_waits {s : DeflateState E} (h : s.Wrapped) (hs : s.state = .body)
    {w : Window} (hw : w.input = []) (mode : Flush) : Waits K (bodyStep s w mode) := by
  have hafter := afterEngine_wrapped h w (engineCall s w mode)
  have hshort : Short (afterEngine s w (engineCall s w mode)) := .body (by simp [hs])
  unfold bodyStep
  rw [if_neg (by simp [h.decoder])]
  dsimp only
  split_ifs with hend hwrap hbad hidle
  · exact ⟨⟨hafter.decoder, hafter.wrap, hafter.trailer⟩, .trailer rfl hafter.trailer,
      by simp [hw]⟩
  · exact absurd hwrap (by simp [h.wrap])
  · exact ⟨hafter, .inr hshort, fromMz_ne_streamEnd hend⟩
  · exact ⟨hafter, .inr hshort, stalled_ne_streamEnd _ _ _⟩
  · exact ⟨hafter, hshort, by simp [hw]⟩

/-- With nothing to read, a short decoder does not end its stream. -/
theorem deflateProcess_waits (K : InflateErrors E) {s : DeflateState E} (h : s.Wrapped)
    (hs : Short s) {w : Window} (hw : w.input = []) (mode : Flush) :
    (deflateProcess s w mode).2.1.Wrapped ∧
      (Dead K (deflateProcess s w mode).2.1 ∨ Short (deflateProcess s w mode).2.1) ∧
      (deflateProcess s w mode).1 ≠ .streamEnd := by
  refine runLoop_rule
    (fun x : DeflateState E × Window => x.1.Wrapped ∧ Short x.1 ∧ x.2.input = [])
    (fun r : Status × DeflateState E × Window =>
      r.2.1.Wrapped ∧ (Dead K r.2.1 ∨ Short r.2.1) ∧ r.1 ≠ .streamEnd)
    deflateMeasure ?_ ⟨h, hs, hw⟩ (Nat.lt_succ_self _)
  rintro ⟨s, w⟩ ⟨h, hs, hw⟩
  simp only at h hs hw
  have hprog := deflateStep_progresses mode (s, w)
  have hwaits : Waits K (deflateStep mode (s, w)) := by
    cases hs with
    | header state =>
      simp only [deflateStep, state]
      exact headerStep_waits h state hw mode
    | body state =>
      simp only [deflateStep, state]
      exact bodyStep_waits h state hw mode
    | trailer state read =>
      simp only [deflateStep, state, trailerStep]
      rw [if_neg (by simp [h.decoder]), if_pos read, hw]
      exact ⟨h, .inr (.trailer state read), missing_ne_streamEnd mode⟩
  cases hstep : deflateStep mode (s, w) with
  | inl y =>
    rw [hstep] at hprog hwaits
    exact ⟨hwaits, hprog.2⟩
  | inr r =>
    rw [hstep] at hwaits
    exact hwaits

/-! ## Sessions -/

section Sessions

variable {M : Miniz} {codec : CodecId} {wrap : WrapKind}

theorem Decoder.settle_unmoved {v : CodecVtable} (d : Decoder v) {buf : Buffer}
    {r : Status × v.Dec × Buffer} (h : r.2.2 = (d.shown buf).advance (d.shown buf).window) :
    (d.settle buf r).buf.srcPos = buf.srcPos ∧ (d.settle buf r).buf.dstPos = buf.dstPos := by
  obtain ⟨st, s, after⟩ := r
  simp only at h
  subst h
  unfold settle
  dsimp only
  split_ifs <;> simp [Buffer.advance, Buffer.window]

/-- A reset leaves a wrapped decoder, and the handle as it was when it fails. -/
theorem decoderReset_wrapped (K : InflateErrors M.inflate)
    {d : Decoder (deflateVtable M codec wrap)} (opts : Option DecoderOpts)
    (h : DeflateState.Wrapped d.state) :
    DeflateState.Wrapped (decoderReset d opts).2.state ∧
      ((decoderReset d opts).1 ≠ .ok → (decoderReset d opts).2 = d) := by
  unfold decoderReset
  dsimp only
  split_ifs
  · exact ⟨h, fun _ => rfl⟩
  · exact ⟨h, fun _ => rfl⟩
  · obtain ⟨henc, hwrap, htail⟩ := h
    rcases deflateReset_decoder
      (s := { d.state with decFlags := (copyDecoderOpts (opts.getD d.opts)).flags })
      henc with ⟨mz, -, hr⟩ | ⟨mz, hbad, -⟩
    · simp only [deflateVtable, hr]
      exact ⟨⟨henc, hwrap, htail⟩, fun hne => absurd rfl hne⟩
    · have hreset := K.reset d.state.mz
      rw [hbad] at hreset
      cases hreset

theorem deflateVtable_canFlush (M : Miniz) (codec : CodecId) (wrap : WrapKind) :
    (deflateVtable M codec wrap).can canFlush = true := by
  change ((canEncode ||| canDecode ||| canFlush) &&& canFlush != 0) = true
  decide

/-- A handle that has met a data error and has not been reset since. -/
structure Session.Halted (K : InflateErrors M.inflate)
    (s : Session (deflateVtable M codec wrap)) : Prop where
  wrapped : s.dec.state.Wrapped
  unfinished : s.dec.finished = false
  stopped : Dead K s.dec.state ∨ Short s.dec.state

/-- The call offers no byte to a decoder that would go on reading. -/
def Session.Withheld (K : InflateErrors M.inflate)
    (s : Session (deflateVtable M codec wrap)) : DecoderOp → Prop
  | .process buf _ => ¬ Dead K s.dec.state → buf.unread = []
  | .reset _ => True

/-- The codec's call on a halted handle: it does not end the stream, and a dead decoder
fails without moving. -/
theorem Session.Halted.codecCall {s : Session (deflateVtable M codec wrap)}
    {K : InflateErrors M.inflate} (h : s.Halted K) {buf : Buffer} {mode : Flush}
    (hop : s.Withheld K (.process buf mode)) :
    let r := deflateProcess s.dec.state (s.dec.shown buf).window mode
    r.2.1.Wrapped ∧ (Dead K r.2.1 ∨ Short r.2.1) ∧ r.1 ≠ .streamEnd ∧
      (Dead K s.dec.state → r.1.isError = true ∧ r.2.2 = (s.dec.shown buf).window) := by
  by_cases hd : Dead K s.dec.state
  · obtain ⟨st, s', hr, hst, hwrapped, hdead⟩ := deflateProcess_dead h.wrapped hd
      (s.dec.shown buf).window mode
    simp only [hr]
    exact ⟨hwrapped, .inl hdead, fun he => (by rw [he] at hst; cases hst),
      fun _ => ⟨Status.isError_of_isDataError hst, trivial⟩⟩
  · have hshort := h.stopped.resolve_left hd
    have hempty : (s.dec.shown buf).window.input = [] := by
      simpa [Buffer.window] using hop hd
    obtain ⟨h1, h2, h3⟩ := deflateProcess_waits K h.wrapped hshort hempty mode
    exact ⟨h1, h2, h3, fun hdead => absurd hdead hd⟩

/-- A call on a halted handle leaves it halted and does not end the stream; a dead decoder
answers it with an error and moves neither cursor. -/
theorem Session.Halted.next {s : Session (deflateVtable M codec wrap)}
    {K : InflateErrors M.inflate} (h : s.Halted K) {buf : Buffer} {mode : Flush}
    (hop : s.Withheld K (.process buf mode)) :
    (s.next (.process buf mode)).Halted K ∧
      (decoderCall s.dec buf mode).status ≠ .streamEnd ∧
      (Dead K s.dec.state → (decoderCall s.dec buf mode).status.isError = true ∧
        (decoderCall s.dec buf mode).buf.srcPos = buf.srcPos ∧
        (decoderCall s.dec buf mode).buf.dstPos = buf.dstPos) := by
  obtain ⟨hwrapped, hstopped, hend, hdead⟩ := h.codecCall hop
  by_cases hbuf : checkBuffer buf = .ok
  · have hcall := @decoderCall_codec _ _ _ mode hbuf h.unfinished
      fun _ => deflateVtable_canFlush M codec wrap
    set x := (deflateVtable M codec wrap).decoderProcess s.dec.state (s.dec.shown buf) mode with hx
    obtain ⟨capped, allowed, produced, unread, hfin, hst, _⟩ := s.dec.settle_judged buf x
    rw [← hcall] at hfin hst
    have hunfinished : (decoderCall s.dec buf mode).dec.finished = false := by
      rw [hfin, beq_eq_false_iff_ne]
      exact hend
    have hstate : (decoderCall s.dec buf mode).dec.state = x.2.1 := by rw [hcall]; rfl
    have hpassed (he : (decoderCall s.dec buf mode).status.isError = false) :
        (decoderCall s.dec buf mode).status = x.1 := by
      rw [hst] at he ⊢
      rw [Decoder.verdict_of_not_error he, Verdict.status]
    refine ⟨⟨hstate ▸ hwrapped, hunfinished, hstate ▸ hstopped⟩, fun he => ?_, fun hd => ?_⟩
    · have hsame := hpassed (by rw [he]; rfl)
      rw [he] at hsame
      exact hend hsame.symm
    · obtain ⟨herr, hwin⟩ := hdead hd
      have hafter : x.2.2 = (s.dec.shown buf).advance (s.dec.shown buf).window :=
        congrArg (s.dec.shown buf).advance hwin
      have hpos := s.dec.settle_unmoved (r := x) hafter
      rw [← hcall] at hpos
      refine ⟨?_, hpos⟩
      by_contra hne
      rw [Bool.not_eq_true] at hne
      rw [hpassed hne] at hne
      exact Bool.noConfusion (hne.symm.trans herr)
  · have hcall : decoderCall s.dec buf mode = ⟨checkBuffer buf, s.dec, buf, false⟩ := by
      rw [decoderCall, if_pos hbuf]
    have herr := checkBuffer_isError hbuf
    have hdec : (s.next (.process buf mode)).dec = s.dec := congrArg Outcome.dec hcall
    refine ⟨⟨hdec ▸ h.wrapped, hdec ▸ h.unfinished, hdec ▸ h.stopped⟩, ?_, fun _ => ?_⟩
    · rw [hcall]
      intro (he : checkBuffer buf = .streamEnd)
      rw [he] at herr
      cases herr
    · rw [hcall]
      exact ⟨herr, rfl, rfl⟩

/-- A data error raised by the header, the body or the trailer: the codec was called, and
rejected what it read. -/
structure Session.Raises (s : Session (deflateVtable M codec wrap)) (buf : Buffer)
    (mode : Flush) : Prop where
  buffer : checkBuffer buf = .ok
  unfinished : s.dec.finished = false
  rejected : (deflateProcess s.dec.state (s.dec.shown buf).window mode).1.isDataError = true

/-- Every handle of the family has a wrapped decoder, whatever has been done with it. -/
theorem wrapped_of_reached (K : InflateErrors M.inflate) (hwrap : wrap ≠ .none)
    {lookup : CodecId → Option CodecVtable} {opts : DecoderOpts}
    {d : Decoder (deflateVtable M codec wrap)}
    (hnew : decoderNew lookup opts = .ok ⟨deflateVtable M codec wrap, d⟩)
    {s : Session (deflateVtable M codec wrap)} (hs : Session.Reached d s) :
    DeflateState.Wrapped s.dec.state := by
  refine hs.invariant (fun s => DeflateState.Wrapped s.dec.state) ?_ fun s op ih _ => ?_
  · exact wrapped_new hwrap (decoderNew_ok hnew).2
  cases op with
  | process buf mode =>
    rcases decoderCall_cases s.dec buf mode with ⟨hd, _⟩ | ⟨_, _, _, hcall⟩
    · have hdec : (s.next (.process buf mode)).dec = s.dec := hd
      exact hdec ▸ ih
    · have hdec : (s.next (.process buf mode)).dec.state =
          (deflateProcess s.dec.state (s.dec.shown buf).window mode).2.1 :=
        congrArg (fun o => o.dec.state) hcall
      exact hdec ▸ (deflateProcess_rejects K ih _ mode).1
  | reset opts =>
    rw [Session.next_reset_dec]
    exact (decoderReset_wrapped K opts ih).1

/-- The error halts the handle. -/
theorem Session.Raises.halted {s : Session (deflateVtable M codec wrap)} {buf : Buffer}
    {mode : Flush} (h : s.Raises buf mode) (K : InflateErrors M.inflate)
    (hs : DeflateState.Wrapped s.dec.state) :
    Rejected K (s.next (.process buf mode)).dec.state ∧ (s.next (.process buf mode)).Halted K := by
  have hcall := @decoderCall_codec _ _ _ mode h.buffer h.unfinished
    fun _ => deflateVtable_canFlush M codec wrap
  have hdec : (s.next (.process buf mode)).dec.state =
      (deflateProcess s.dec.state (s.dec.shown buf).window mode).2.1 :=
    congrArg (fun o => o.dec.state) hcall
  have hfin : (s.next (.process buf mode)).dec.finished =
      ((deflateProcess s.dec.state (s.dec.shown buf).window mode).1 == .streamEnd) :=
    congrArg (fun o => o.dec.finished) hcall
  have hne : (deflateProcess s.dec.state (s.dec.shown buf).window mode).1 ≠ .streamEnd := by
    intro hend
    have := h.rejected
    rw [hend] at this
    cases this
  obtain ⟨hwrapped, hrejects⟩ := deflateProcess_rejects K hs (s.dec.shown buf).window mode
  have hrejected := hrejects h.rejected
  refine ⟨hdec ▸ hrejected, hdec ▸ hwrapped, ?_, hdec ▸ hrejected.dead_or_short⟩
  rw [hfin, beq_eq_false_iff_ne]
  exact hne

theorem Session.Halted.later {K : InflateErrors M.inflate}
    {s s' : Session (deflateVtable M codec wrap)} (h : s.Halted K)
    (hlater : Session.Later (Session.Withheld K) s s') : s'.Halted K := by
  induction hlater with
  | here => exact h
  | process _ buf mode hop ih => exact (ih.next hop).1
  | reset _ opts _ failed ih =>
    have hdec := (decoderReset_wrapped K opts ih.wrapped).2 failed
    rw [← Session.next_reset_dec] at hdec
    exact ⟨hdec ▸ ih.wrapped, hdec ▸ ih.unfinished, hdec ▸ ih.stopped⟩

/-- A data error is for good as long as no byte is offered to a decoder that would go on
reading: after a zlib header, an engine or a trailer that failed nothing is read or written
any more, and after any data error no call ends the stream. -/
theorem dataError_sticky (K : InflateErrors M.inflate) (hwrap : wrap ≠ .none)
    {lookup : CodecId → Option CodecVtable} {opts : DecoderOpts}
    {d : Decoder (deflateVtable M codec wrap)}
    (hnew : decoderNew lookup opts = .ok ⟨deflateVtable M codec wrap, d⟩)
    {s : Session (deflateVtable M codec wrap)} (hs : Session.Reached d s) {buf : Buffer}
    {mode : Flush} (hraise : s.Raises buf mode) :
    Rejected K (s.next (.process buf mode)).dec.state ∧
    ∀ s', Session.Later (Session.Withheld K) (s.next (.process buf mode)) s' →
      ∀ buf' mode', s'.Withheld K (.process buf' mode') →
        (decoderProcess s'.dec buf' mode').1 ≠ .streamEnd ∧
        (Dead K s'.dec.state → (decoderProcess s'.dec buf' mode').1.isError = true ∧
          (decoderProcess s'.dec buf' mode').2.2.srcPos = buf'.srcPos ∧
          (decoderProcess s'.dec buf' mode').2.2.dstPos = buf'.dstPos) := by
  obtain ⟨hrejected, hhalted⟩ := hraise.halted K (wrapped_of_reached K hwrap hnew hs)
  refine ⟨hrejected, fun s' hlater buf' mode' hop => ?_⟩
  exact ((hhalted.later hlater).next hop).2

end Sessions

def gzipOpts : DecoderOpts :=
  { structSize := decoderOptsSize, codec := codecGzip, maxOutput := 0, maxRatio := 0
    flags := 0, expectedSize := 0 }

def gzipOnly : CodecId → Option CodecVtable := fun _ => some (gzipCodec (refMiniz fixedA))

def gzipDecoder : Decoder (deflateVtable (refMiniz fixedA) codecGzip .gzip) where
  state := {
    mz := ⟨0, 0, false⟩, mzCalled := false, encoder := false, wrap := .gzip, state := .header
    level := mzDefaultLevel, hdr := List.replicate gzipHeaderLen 0, hdrLen := gzipHeaderLen
    hdrPos := 0, tail := List.replicate 8 0, tailLen := 8, tailPos := 0
    checksum := mzCrc32 0 [], uncompressed := 0, gz := gzipHeaderInit, decFlags := 0
    probeMagic := false }
  opts := gzipOpts
  finished := false
  totalIn := 0
  totalOut := 0

theorem gzipDecoder_new : decoderNew gzipOnly gzipOpts = .ok ⟨_, gzipDecoder⟩ := rfl

/-- A first byte of 00 is rejected; the rest of a member after it is then accepted. -/
theorem rejectedHeader_accepted :
    ¬ ∀ (M : Miniz) (_ : InflateErrors M.inflate) (codec : CodecId) (wrap : WrapKind)
      (_ : wrap ≠ .none) (lookup : CodecId → Option CodecVtable) (opts : DecoderOpts)
      (d : Decoder (deflateVtable M codec wrap))
      (_ : decoderNew lookup opts = .ok ⟨deflateVtable M codec wrap, d⟩)
      (s : Session (deflateVtable M codec wrap)) (_ : Session.Reached d s) (buf : Buffer)
      (mode : Flush) (_ : s.Raises buf mode)
      (_ : (decoderProcess s.dec buf mode).1.isDataError = true)
      (s' : Session (deflateVtable M codec wrap))
      (_ : Session.Later (fun _ _ => True) (s.next (.process buf mode)) s')
      (buf' : Buffer) (mode' : Flush), (decoderProcess s'.dec buf' mode').1 ≠ .streamEnd := by
  intro hall
  refine hall (refMiniz fixedA) (refInflateErrors fixedA) codecGzip .gzip (by decide) gzipOnly
    gzipOpts gzipDecoder gzipDecoder_new _ .new (.ofParts [0x00] 8) .run
    ⟨rfl, rfl, by decide +kernel⟩ (by decide +kernel) _ .here
    (.ofParts [0x8B, 8, 0, 0, 0, 0, 0, 0, 255, 0x4B, 0x04, 0x00,
      0x43, 0xBE, 0xB7, 0xE8, 1, 0, 0, 0] 8) .finish ?_
  decide +kernel

/-- A zlib header that fails its check, and a valid body after it. -/
theorem dataError_sticky_zlib :
    (decoderProcess ((Session.start zlibDecoder).next
      (.process (.ofParts [0x78, 0x00] 8) .run)).dec (.ofParts [0x4B, 0x04, 0x00] 8) .finish).1 ≠
        .streamEnd := by
  have hraises : (Session.start zlibDecoder).Raises (.ofParts [0x78, 0x00] 8) .run :=
    ⟨rfl, rfl, by decide⟩
  refine ((dataError_sticky (refInflateErrors fixedA) (by decide) zlibDecoder_new .new
    hraises).2 _ .here (.ofParts [0x4B, 0x04, 0x00] 8) .finish fun hlive => absurd ?_ hlive).1
  exact .header rfl (by decide) (by decide) (by decide)

end Zukomp
