import Zukomp.Block.RoundTrip
import Zukomp.Block.Search

/-! # A block of a size the caller expects

With an expected size the decoder compares the caller's two limits before it looks at the block.
What every run ends with, and where that is what the limits mean for a block's own size.
-/

namespace Zukomp

open Library

variable {Z : Lz4} {b x : List UInt8} {s : Lz4bState} {w : Window}

/-! ## The last call of the gathering decoder -/

/-- What the decoder makes of a whole block of which it expects a size. -/
def lz4bExpected (Z : Lz4) (s : Lz4bState) (b : List UInt8) : Except Status (List UInt8) :=
  if s.maxOutput ≠ 0 ∧ s.maxOutput < s.expected then .error .errOutputLimit
  else if intMax < s.expected.toNat ∨ b = [] ∨ lz4MaxInputSize < b.length then
    .error .errInvalidData
  else match lz4bExact Z b s.expected.toNat with
    | none => .error .errInvalidData
    | some text => .ok text

theorem lz4bExact_length {want : ℕ} {text : List UInt8} (h : lz4bExact Z b want = some text) :
    text.length = want := by
  unfold lz4bExact at h
  split at h
  · split_ifs at h with hlen
    rwa [← Option.some.inj h]
  · cases h

theorem lz4bExpected_length (h : lz4bExpected Z s b = .ok x) :
    x.length = s.expected.toNat ∧ ¬ (s.maxOutput ≠ 0 ∧ s.maxOutput < s.expected) := by
  unfold lz4bExpected at h
  split_ifs at h with hmax hbad
  split at h
  · cases h
  · next htext => exact ⟨Except.ok.inj h ▸ lz4bExact_length htext, hmax⟩

/-- A call that answers an error, or that delivers a text as far as the window goes. -/
inductive Lz4bAnswers (w : Window) :
    Except Status (List UInt8) → Status × Lz4bState × Window → Prop
  | refused {st : Status} {s' : Lz4bState} {u : ℕ} (read : u ≤ w.input.length) :
      Lz4bAnswers w (.error st) (st, s', w.take u)
  | decoded {x : List UInt8} {s' : Lz4bState} (done : s'.done = true)
      (stage : s'.stage = x.drop w.room) : Lz4bAnswers w (.ok x)
        (if x.drop w.room = [] then .streamEnd else .needOutput, s',
          (w.take w.input.length).put (x.take w.room))

theorem lz4bDrain_answer {s' : Lz4bState} (hdone : s'.done = true) :
    Lz4bAnswers w (.ok s'.stage) (lz4bDrain s' (w.take w.input.length)) :=
  .decoded hdone rfl

theorem lz4bHold_gathers {mode : Flush} (hdec : s.encoder = false) (hdone : s.done = false)
    (hheld : s.input.length ≤ lz4MaxInputSize) (hword : s.input.length + w.input.length < wordSize)
    (hmode : mode ≠ .finish) :
    lz4bDecoderProcess Z s w mode =
      if lz4MaxInputSize < s.input.length + w.input.length then (.errInvalidData, s, w)
      else (.needInput, { s with input := s.input ++ w.input }, w.take w.input.length) := by
  rw [lz4bDecoderProcess, if_neg (by simp [hdone]), if_pos hmode, lz4bHold]
  by_cases hlong : lz4MaxInputSize < s.input.length + w.input.length
  · rw [if_pos hlong, lz4bGather_fails hdec hheld hlong hword]
  · rw [if_neg hlong, lz4bGather_fits (Nat.not_lt.mp hlong)]

/-- Under `ZU_FINISH` the answer is that of the whole block, whatever has been gathered of it and
whatever room there is. -/
theorem lz4bFinish_expected (hdec : s.encoder = false) (hdone : s.done = false)
    (hexp : s.hasExpected = true) (hstage : s.stage = []) (hheld : s.input.length ≤ lz4MaxInputSize)
    (hword : (s.input ++ w.input).length < wordSize) :
    Lz4bAnswers w (lz4bExpected Z s (s.input ++ w.input)) (lz4bDecoderProcess Z s w .finish) := by
  rw [List.length_append] at hword
  have hrefused (st : Status) : Lz4bAnswers w (.error st) (st, s, w) := by
    have h : Lz4bAnswers w (.error st) (st, s, w.take 0) := .refused (Nat.zero_le _)
    rwa [Window.take_zero] at h
  unfold lz4bDecoderProcess lz4bExpected
  rw [if_neg (show ¬ s.done = true by simp [hdone]),
    if_neg (show ¬ Flush.finish ≠ .finish by simp), if_pos hexp]
  by_cases hmax : s.maxOutput ≠ 0 ∧ s.maxOutput < s.expected
  · rw [if_pos hmax, if_pos hmax]
    exact hrefused _
  rw [if_neg hmax, if_neg hmax]
  by_cases hint : intMax < s.expected.toNat
  · rw [if_pos hint, if_pos (.inl hint)]
    exact hrefused _
  rw [if_neg hint]
  by_cases hone : s.input = [] ∧ s.expected.toNat ≤ w.room
  · rw [if_pos hone, hone.1, List.nil_append]
    by_cases hbad : w.input = [] ∨ lz4MaxInputSize < w.input.length
    · rw [if_pos hbad, if_pos (.inr hbad)]
      exact hrefused _
    rw [if_neg hbad, if_neg (show ¬ (_ ∨ _) by tauto)]
    cases htext : lz4bExact Z w.input s.expected.toNat with
    | none => exact hrefused _
    | some text =>
      have hlen : text.length ≤ w.room := (lz4bExact_length htext).le.trans hone.2
      have hdrop : text.drop w.room = [] := List.drop_eq_nil_iff.mpr hlen
      have h : Lz4bAnswers w (.ok text) (if text.drop w.room = [] then .streamEnd else .needOutput,
          { s with input := [], done := true },
          (w.take w.input.length).put (text.take w.room)) :=
        .decoded rfl (hstage.trans hdrop.symm)
      rwa [if_pos hdrop, List.take_of_length_le hlen] at h
  rw [if_neg hone]
  by_cases hlong : lz4MaxInputSize < s.input.length + w.input.length
  · rw [lz4bGather_fails hdec hheld hlong hword,
      if_pos (.inr (.inr (by rwa [List.length_append])))]
    exact hrefused _
  rw [lz4bGather_fits (Nat.not_lt.mp hlong)]
  dsimp only
  by_cases hnil : s.input ++ w.input = []
  · rw [if_pos hnil, if_pos (.inr (.inl hnil))]
    exact .refused le_rfl
  rw [if_neg hnil, if_neg (show ¬ (_ ∨ _) by rw [List.length_append]; tauto)]
  cases htext : lz4bExact Z (s.input ++ w.input) s.expected.toNat with
  | none => exact .refused le_rfl
  | some text =>
    have hproduced : (Lz4bState.produce { s with input := s.input ++ w.input } text).done = true :=
      rfl
    exact lz4bDrain_answer hproduced

/-! ## The runs -/

/-- What a caller's run over the block ends with, where `front` bytes of it go before the last of
the caller's buffers. -/
def lz4bVerdict (Z : Lz4) (opts : DecoderOpts) (front : ℕ) (b : List UInt8) :
    Except Status (List UInt8) :=
  if lz4MaxInputSize < front then .error .errInvalidData
  else lz4bExpected Z (lz4bNew false levelDefault (some opts)) b

/-- A run ends with an error, or with all of the text. -/
def Lz4bEnds : Except Status (List UInt8) → FeedEnd → Prop
  | .error st, r => r.status = st
  | .ok x, r => r = ⟨.streamEnd, x⟩

/-- A caller whose decoder gathers. -/
structure Lz4bGathers (opts : DecoderOpts) (front : ℕ) (b : List UInt8)
    (f : Feed (lz4BlockCodec Z)) : Prop where
  opts_eq : f.dec.opts = opts
  unfinished : f.dec.finished = false
  state : f.dec.state =
    { lz4bNew false levelDefault (some opts) with input := f.dec.state.input }
  totalOut : f.dec.totalOut = 0
  written : f.written = []
  held : f.dec.state.input.length ≤ lz4MaxInputSize
  split : f.dec.state.input ++ f.unread ++ f.later.flatten = b
  front_eq : f.dec.state.input.length + (f.unread :: f.later).dropLast.flatten.length = front

structure Lz4bDrains (opts : DecoderOpts) (x : List UInt8) (f : Feed (lz4BlockCodec Z)) :
    Prop where
  opts_eq : f.dec.opts = opts
  unfinished : f.dec.finished = false
  done : f.dec.state.done = true
  counted : f.dec.totalOut.toNat = f.written.length
  unread : f.unread = []
  later : f.later = []
  text : f.written ++ f.dec.state.stage = x

def lz4bMeasure (opts : DecoderOpts) (f : Feed (lz4BlockCodec Z)) : ℕ :=
  if f.dec.state.done then 2 * f.dec.state.stage.length + if f.room = 0 then 1 else 0
  else 2 * opts.expectedSize.toNat + 2 + f.later.length

/-- The options a text of the expected size does not exceed. -/
structure Lz4bAllows (opts : DecoderOpts) (x : List UInt8) : Prop where
  noRatio : opts.maxRatio = 0
  expected : opts.hasExpected = true
  size : x.length = opts.expectedSize.toNat
  within : ¬ (opts.maxOutput ≠ 0 ∧ opts.maxOutput < opts.expectedSize)

variable {opts : DecoderOpts} {f : Feed (lz4BlockCodec Z)} {y : List UInt8} {front : ℕ}

theorem Lz4bAllows.ceiling (h : Lz4bAllows opts x) :
    opts.ceiling = some (opts.expectedSize, .errInvalidData) := by
  have hwithin := h.within
  rw [not_and, UInt64.not_lt] at hwithin
  exact if_pos ⟨h.expected, or_iff_not_imp_left.mpr hwithin⟩

/-- The driver passes on a call that delivers the rest `y` of the text. -/
theorem decoderProcess_delivers (ha : Lz4bAllows f.dec.opts x) (hfin : f.dec.finished = false)
    (hcount : f.dec.totalOut.toNat = f.written.length) (htext : f.written ++ y = x)
    (hans : Lz4bAnswers (StreamDecoder.shownWindow f.dec (.ofParts f.unread f.room)) (.ok y)
      (lz4bDecoderProcess Z f.dec.state
        (StreamDecoder.shownWindow f.dec (.ofParts f.unread f.room)) f.mode)) :
    ∃ d' buf', decoderProcess f.dec (.ofParts f.unread f.room) f.mode =
        (if y.length ≤ f.room then .streamEnd else .needOutput, d', buf') ∧
      d'.opts = f.dec.opts ∧ d'.finished = decide (y.length ≤ f.room) ∧ d'.state.done = true ∧
      d'.state.stage = y.drop f.room ∧
      d'.totalOut.toNat = f.written.length + (y.take f.room).length ∧
      buf'.unread = [] ∧ buf'.stored = y.take f.room := by
  have hlen : f.written.length + y.length = f.dec.opts.expectedSize.toNat := by
    rw [← List.length_append, htext, ha.size]
  have hword := f.dec.opts.expectedSize.toNat_lt
  have hall := f.dec.allowance_some ha.ceiling f.room
  rw [hcount, show f.dec.opts.expectedSize.toNat - f.written.length = y.length by omega] at hall
  have hwindow : StreamDecoder.shownWindow f.dec (.ofParts f.unread f.room) =
      ⟨f.unread, min y.length f.room, []⟩ := by
    rw [StreamDecoder.shownWindow, Buffer.unread_ofParts, Buffer.availOut_ofParts, hall]
  have htake : y.take (min y.length f.room) = y.take f.room := by
    rcases Nat.le_total y.length f.room with h | h
    · rw [Nat.min_eq_left h, List.take_length, List.take_of_length_le h]
    · rw [Nat.min_eq_right h]
  have hdrop : y.drop (min y.length f.room) = y.drop f.room := by
    rcases Nat.le_total y.length f.room with h | h
    · rw [Nat.min_eq_left h, List.drop_length, List.drop_eq_nil_of_le h]
    · rw [Nat.min_eq_right h]
  have hwrites : (y.take f.room).length = min f.room y.length := List.length_take
  generalize hr : lz4bDecoderProcess Z f.dec.state _ f.mode = r at hans
  cases hans with | @decoded _ s' done stage =>
  rw [hwindow] at hr stage
  dsimp only at hr stage
  rw [htake, hdrop] at hr
  rw [hdrop] at stage
  simp only [List.drop_eq_nil_iff] at hr
  rw [← hwindow] at hr
  have hm : (StreamDecoder.shownWindow f.dec (.ofParts f.unread f.room)).Moved f.unread.length
      (y.take f.room) (((StreamDecoder.shownWindow f.dec (.ofParts f.unread f.room)).take
        f.unread.length).put (y.take f.room)) := by
    refine ⟨by rw [hwindow], ?_, rfl⟩
    rw [hwindow, hwrites, Nat.min_comm]
  obtain ⟨d', buf', hcall, hd, hunread, hstored, -⟩ := decoderProcess_moved
    rfl (checkBuffer_ofParts f.unread f.room) hfin (StreamDecoder.Fed.mode_ne f) hm hr
  have htotal : d'.totalOut.toNat = f.written.length + (y.take f.room).length := by
    rw [hd, UInt64.toNat_add, UInt64.toNat_ofNat', hcount, Nat.add_mod_mod, Nat.mod_eq_of_lt]
    omega
  have hdopts : d'.opts = f.dec.opts := by rw [hd]
  have hadmits : d'.opts.Admits d'.totalOut := by
    rw [DecoderOpts.admits_iff, hdopts, ha.ceiling, htotal]
    rintro C status ⟨⟩
    omega
  refine ⟨d', buf', ?_, hdopts, ?_, ?_, ?_, htotal, ?_, ?_⟩
  · rw [hcall, Decoder.verdict_of_admitted (by rw [hdopts]; exact ha.noRatio) hadmits, hdopts]
    simp only [Buffer.unread_ofParts, Buffer.availOut_ofParts, hall, lt_irrefl, decide_false,
      Bool.false_eq_true, false_and, and_false, if_false, decide_eq_true_eq]
    by_cases hfull : y.length ≤ f.room
    · have hsize : d'.totalOut = f.dec.opts.expectedSize := UInt64.toNat_inj.mp (by omega)
      rw [if_pos hfull, if_neg (by simp [hsize]), if_neg (by simp)]
      rfl
    · rw [if_neg hfull, if_neg (by simp), if_neg (by omega)]
      rfl
  · rw [hd]
    by_cases hfull : y.length ≤ f.room <;> simp [hfull]
  · rw [hd]
    exact done
  · rw [hd]
    exact stage
  · simpa using hunread
  · simpa [Buffer.ofParts] using hstored

/-- Such a call ends the stream, or leaves less of the text. -/
theorem feedTurn_delivers (ws : Windows) (ha : Lz4bAllows f.dec.opts x)
    (hfin : f.dec.finished = false) (hcount : f.dec.totalOut.toNat = f.written.length)
    (hlater : f.later = []) (htext : f.written ++ y = x)
    (hans : Lz4bAnswers (StreamDecoder.shownWindow f.dec (.ofParts f.unread f.room)) (.ok y)
      (lz4bDecoderProcess Z f.dec.state
        (StreamDecoder.shownWindow f.dec (.ofParts f.unread f.room)) f.mode)) :
    Turn (fun f' => Lz4bDrains f.dec.opts x f' ∧ f'.dec.state.stage = y.drop f.room ∧
        f.room < y.length ∧ f'.room ≠ 0)
      (fun r => r = ⟨.streamEnd, x⟩) (feedTurn ws f) := by
  obtain ⟨d', buf', hcall, hopts, hfin', hdone, hstage, htotal, hunread, hstored⟩ :=
    decoderProcess_delivers ha hfin hcount htext hans
  unfold feedTurn
  rw [hcall, hlater]
  by_cases hfull : y.length ≤ f.room
  · rw [if_pos hfull]
    simp only [turn_inr, hstored, List.take_of_length_le hfull, htext]
  · rw [if_neg hfull]
    simp only [turn_inl]
    refine ⟨⟨hopts, by simpa [hfull] using hfin', hdone, ?_, hunread, rfl, ?_⟩, hstage,
      Nat.not_le.mp hfull, (ws.pos _).ne'⟩
    · rw [htotal, hstored, List.length_append]
    · rw [hstage, hstored, List.append_assoc, List.take_append_drop, htext]

/-- An error of the decoder's before any output is the caller's, whichever limit it is shown
under. -/
theorem feedTurn_refuses (ws : Windows) (hratio : f.dec.opts.maxRatio = 0)
    (hfin : f.dec.finished = false) (htotal : f.dec.totalOut = 0) {st : Status} (hst : st = .errInvalidData ∨
      st = .errOutputLimit ∧ f.dec.opts.maxOutput ≠ 0 ∧
        f.dec.opts.maxOutput < f.dec.opts.expectedSize)
    {s' : Lz4bState} {u : ℕ} (hu : u ≤ f.unread.length)
    (hr : lz4bDecoderProcess Z f.dec.state
      (StreamDecoder.shownWindow f.dec (.ofParts f.unread f.room)) f.mode =
        (st, s', (StreamDecoder.shownWindow f.dec (.ofParts f.unread f.room)).take u)) :
    ∃ r, feedTurn ws f = .inr r ∧ r.status = st := by
  have hm : (StreamDecoder.shownWindow f.dec (.ofParts f.unread f.room)).Moved u []
      ((StreamDecoder.shownWindow f.dec (.ofParts f.unread f.room)).take u) :=
    .take (by simpa [StreamDecoder.shownWindow] using hu)
  obtain ⟨d', buf', hcall, hd, -⟩ := decoderProcess_moved
    rfl (checkBuffer_ofParts f.unread f.room) hfin (StreamDecoder.Fed.mode_ne f) hm hr
  have hdopts : d'.opts = f.dec.opts := by rw [hd]
  have hadmits : d'.opts.Admits d'.totalOut := by
    rw [hd, htotal]
    simp [DecoderOpts.admits_iff]
  have herr : st ≠ .streamEnd ∧ st ≠ .needOutput ∧ st ≠ .needInput := by
    rcases hst with rfl | ⟨rfl, -⟩ <;> simp
  -- a ceiling of nothing is the expected size
  have hover (hcap : (f.dec.allowance f.room).2 = true) (hzero : (f.dec.allowance f.room).1 = 0) :
      f.dec.opts.overStatus = st := by
    unfold DecoderOpts.overStatus
    cases hc : f.dec.opts.ceiling with
    | none => simp [f.dec.allowance_none hc] at hcap
    | some C =>
      have hsome := f.dec.allowance_some hc f.room
      simp only [hsome, htotal, UInt64.toNat_zero, Nat.sub_zero, decide_eq_true_eq] at hcap hzero
      have hC : C.1 = 0 := UInt64.toNat_inj.mp (by simpa using (by omega : C.1.toNat = 0))
      unfold DecoderOpts.ceiling at hc
      split_ifs at hc with htight hmax
      · cases hc
        rcases hst with rfl | ⟨-, -, hlt⟩
        · rfl
        · dsimp only at hC
          rw [hC] at hlt
          exact absurd hlt (UInt64.not_lt.mpr UInt64.zero_le)
      · cases hc
        exact absurd hC hmax
  have hstatus : (decoderProcess f.dec (.ofParts f.unread f.room) f.mode).1 = st := by
    rw [hcall, Decoder.verdict_of_admitted (by rw [hdopts]; exact hratio) hadmits, hdopts]
    dsimp only
    rw [if_neg (by simp [herr.1]), if_neg (by simp [herr.1]), if_neg (by simp [herr.2.1])]
    split_ifs with hzero
    · simp only [Buffer.availOut_ofParts] at hzero
      exact hover hzero.1 hzero.2.1
    · rfl
  unfold feedTurn
  dsimp only
  rw [hstatus]
  rcases hst with rfl | ⟨rfl, -⟩
  · exact ⟨_, rfl, rfl⟩
  · exact ⟨_, rfl, rfl⟩

theorem lz4bExpected_error {st : Status} (h : lz4bExpected Z s b = .error st) :
    st = .errInvalidData ∨ st = .errOutputLimit ∧ s.maxOutput ≠ 0 ∧ s.maxOutput < s.expected := by
  unfold lz4bExpected at h
  split_ifs at h with hmax hbad
  · cases h
    exact .inr ⟨rfl, hmax⟩
  · cases h
    exact .inl rfl
  · split at h
    · cases h
      exact .inl rfl
    · cases h

/-- Before the last of its buffers the caller's decoder gathers them. -/
theorem feedTurn_holds (ws : Windows) (hratio : opts.maxRatio = 0) (hb : b.length < wordSize)
    (h : Lz4bGathers opts front b f) {chunk : List UInt8} {later : List (List UInt8)}
    (hlater : f.later = chunk :: later) :
    Turn (fun f' => Lz4bGathers opts front b f' ∧ f'.later = later)
      (fun r => lz4MaxInputSize < front ∧ r.status = .errInvalidData) (feedTurn ws f) := by
  obtain ⟨rfl, hfin, hstate, htotal, hwritten, hheld, hsplit, hfront⟩ := h
  have hdone : f.dec.state.done = false := by rw [hstate]; rfl
  have hdec : f.dec.state.encoder = false := by rw [hstate]; rfl
  have hmode : f.mode ≠ .finish := by simp [Feed.mode, hlater]
  have hword := congrArg List.length hsplit
  simp only [hlater, List.length_append, List.flatten_cons] at hword
  set w := StreamDecoder.shownWindow f.dec (.ofParts f.unread f.room) with hw
  have hinput : w.input = f.unread := by rw [hw, StreamDecoder.shownWindow, Buffer.unread_ofParts]
  have hr := lz4bHold_gathers (Z := Z) hdec hdone hheld (by rw [hinput]; omega) hmode
  rw [hlater, List.dropLast_cons_cons, List.flatten_cons, List.length_append] at hfront
  by_cases hlong : lz4MaxInputSize < f.dec.state.input.length + w.input.length
  · rw [if_pos hlong, ← Window.take_zero w] at hr
    obtain ⟨r, hturn, hst⟩ :=
      feedTurn_refuses ws hratio hfin htotal (.inl rfl) (Nat.zero_le _) hr
    rw [hturn]
    rw [hinput] at hlong
    exact ⟨by omega, hst⟩
  · rw [if_neg hlong] at hr
    obtain ⟨d', buf', hcall, hd, hread, hstored, -⟩ := decoderProcess_moved
      rfl (checkBuffer_ofParts f.unread f.room) hfin (StreamDecoder.Fed.mode_ne f)
      (.take le_rfl) hr
    have hunread : buf'.unread = [] := by
      rw [hread, Buffer.unread_ofParts, ← hw, hinput, List.drop_length]
    have hadmits : d'.opts.Admits d'.totalOut := by
      rw [hd, htotal]
      simp [DecoderOpts.admits_iff]
    have hratio' : d'.opts.maxRatio = 0 := by
      rw [hd]
      exact hratio
    rw [Decoder.verdict_of_admitted hratio' hadmits, hinput] at hcall
    simp only [reduceCtorEq, false_and, and_false, if_false, Buffer.unread_ofParts, lt_irrefl,
      decide_false, Bool.false_eq_true] at hcall
    simp only [Buffer.ofParts, List.append_nil] at hstored
    unfold feedTurn
    rw [hcall, hlater]
    simp only [Verdict.status, turn_inl, hunread, hstored, hwritten, List.nil_append, and_true]
    refine ⟨by rw [hd], by rw [hd]; rfl, ?_, by rw [hd, htotal]; rfl, rfl, ?_, ?_, ?_⟩
    · rw [hd, hinput]
      exact congrArg (fun t : Lz4bState => { t with input := f.dec.state.input ++ f.unread }) hstate
    · rw [hd]
      dsimp only
      rw [List.length_append]
      omega
    · rw [hd]
      dsimp only
      rw [← hsplit, hlater, List.flatten_cons, hinput]
      simp only [List.append_assoc]
    · rw [hd, ← hfront]
      dsimp only
      rw [List.length_append, hinput, Nat.add_assoc]

/-- Under `ZU_FINISH` the decoder answers for the whole block. -/
theorem feedTurn_finishes (ws : Windows) (hratio : opts.maxRatio = 0)
    (hexp : opts.hasExpected = true) (hb : b.length < wordSize) (h : Lz4bGathers opts front b f)
    (hlater : f.later = []) :
    Turn (fun f' => ∃ x, lz4bVerdict Z opts front b = .ok x ∧ Lz4bDrains opts x f' ∧
        f'.dec.state.stage.length ≤ opts.expectedSize.toNat ∧ f'.room ≠ 0)
      (Lz4bEnds (lz4bVerdict Z opts front b)) (feedTurn ws f) := by
  obtain ⟨rfl, hfin, hstate, htotal, hwritten, hheld, hsplit, hfront⟩ := h
  have hmode : f.mode = .finish := by simp [Feed.mode, hlater]
  rw [hlater] at hfront hsplit
  simp only [List.flatten_nil, List.append_nil] at hsplit
  set w := StreamDecoder.shownWindow f.dec (.ofParts f.unread f.room) with hw
  have hinput : w.input = f.unread := by rw [hw, StreamDecoder.shownWindow, Buffer.unread_ofParts]
  have hverdict : lz4bVerdict Z f.dec.opts front b =
      lz4bExpected Z f.dec.state (f.dec.state.input ++ w.input) := by
    have hle : ¬ lz4MaxInputSize < front := by simp at hfront; omega
    rw [lz4bVerdict, if_neg hle, hinput, hsplit, hstate]
    rfl
  have hans := lz4bFinish_expected (Z := Z) (w := w) (s := f.dec.state) (by rw [hstate]; rfl)
    (by rw [hstate]; rfl) (by rw [hstate]; exact hexp) (by rw [hstate]; rfl) hheld
    (by rwa [hinput, hsplit])
  rw [← hmode] at hans
  rw [hverdict]
  have hsame : f.dec.state.maxOutput = f.dec.opts.maxOutput ∧
      f.dec.state.expected = f.dec.opts.expectedSize := by
    rw [hstate]
    exact ⟨rfl, rfl⟩
  cases hres : lz4bExpected Z f.dec.state (f.dec.state.input ++ w.input) with
  | error st =>
    rw [hres] at hans
    generalize hr : lz4bDecoderProcess Z f.dec.state w f.mode = r at hans
    cases hans with | @refused _ s' u read =>
    have herr := lz4bExpected_error hres
    rw [hsame.1, hsame.2] at herr
    obtain ⟨r, hturn, hst⟩ := feedTurn_refuses ws hratio hfin htotal herr (hinput ▸ read) hr
    rw [hturn]
    exact hst
  | ok x =>
    rw [hres] at hans
    obtain ⟨hsize, hwithin⟩ := lz4bExpected_length hres
    rw [hsame.1, hsame.2] at hwithin
    rw [hsame.2] at hsize
    refine (feedTurn_delivers ws ⟨hratio, hexp, hsize, hwithin⟩ hfin (by rw [htotal, hwritten]; rfl)
      hlater (by rw [hwritten, List.nil_append]) hans).mono (fun f' hf' => ?_) fun r hr => hr
    obtain ⟨hdrains, hstage, -, hroom⟩ := hf'
    refine ⟨x, rfl, hdrains, ?_, hroom⟩
    rw [hstage, List.length_drop]
    omega

theorem lz4bVerdict_allows (hratio : opts.maxRatio = 0) (hexp : opts.hasExpected = true)
    (h : lz4bVerdict Z opts front b = .ok x) : Lz4bAllows opts x := by
  unfold lz4bVerdict at h
  split_ifs at h
  obtain ⟨hsize, hwithin⟩ := lz4bExpected_length h
  exact ⟨hratio, hexp, hsize, hwithin⟩

theorem lz4bDecoder_drains (f : Feed (lz4BlockCodec Z)) (hdone : f.dec.state.done = true)
    (hunread : f.unread = []) :
    Lz4bAnswers (StreamDecoder.shownWindow f.dec (.ofParts f.unread f.room))
      (.ok f.dec.state.stage) (lz4bDecoderProcess Z f.dec.state
        (StreamDecoder.shownWindow f.dec (.ofParts f.unread f.room)) f.mode) := by
  set w := StreamDecoder.shownWindow f.dec (.ofParts f.unread f.room) with hw
  have hinput : w.input.length = 0 := by
    rw [hw, StreamDecoder.shownWindow, Buffer.unread_ofParts, hunread, List.length_nil]
  have hans := lz4bDrain_answer (w := w) hdone
  rw [hinput, Window.take_zero] at hans
  unfold lz4bDecoderProcess
  rwa [if_pos hdone]

/-- Every run ends, with the verdict on the block. -/
theorem lz4bFeed_ends (ws : Windows) {d : Decoder (lz4BlockCodec Z)}
    {lookup : CodecId → Option CodecVtable}
    (hnew : decoderNew lookup opts = .ok ⟨lz4BlockCodec Z, d⟩) (hratio : d.opts.maxRatio = 0)
    (hexp : d.opts.hasExpected = true) {chunks : List (List UInt8)} (hcode : chunks.flatten = b)
    (hb : b.length < wordSize) (room : ℕ) :
    ∃ r, Returns (feedTurn ws) (Feed.start d room chunks) r ∧
      Lz4bEnds (lz4bVerdict Z d.opts chunks.dropLast.flatten.length b) r := by
  set front := chunks.dropLast.flatten.length
  refine returns_of_measure (fun f => Lz4bGathers d.opts front b f ∨
    ∃ x, lz4bVerdict Z d.opts front b = .ok x ∧ Lz4bDrains d.opts x f) (lz4bMeasure d.opts)
    (fun f hf => ?_) (.inl ?_)
  · rcases hf with hgathers | ⟨x, hx, hdrains⟩
    · have hdone : f.dec.state.done = false := by rw [hgathers.state]; rfl
      have hmeasure : lz4bMeasure d.opts f = 2 * d.opts.expectedSize.toNat + 2 + f.later.length := by
        rw [lz4bMeasure, if_neg (by simp [hdone])]
      cases hlater : f.later with
      | cons chunk later =>
        refine (feedTurn_holds ws hratio hb hgathers hlater).mono (fun f' hf' => ?_) fun r hr => ?_
        · have hdone' : f'.dec.state.done = false := by rw [hf'.1.state]; rfl
          refine ⟨.inl hf'.1, ?_⟩
          rw [hmeasure, lz4bMeasure, if_neg (by simp [hdone']), hf'.2, hlater, List.length_cons]
          omega
        · rw [lz4bVerdict, if_pos hr.1]
          exact hr.2
      | nil =>
        refine (feedTurn_finishes ws hratio hexp hb hgathers hlater).mono (fun f' hf' => ?_)
          fun r hr => hr
        obtain ⟨x, hx, hdrains, hle, hroom⟩ := hf'
        refine ⟨.inr ⟨x, hx, hdrains⟩, ?_⟩
        rw [hmeasure, lz4bMeasure, if_pos hdrains.done, if_neg hroom]
        omega
    · have hallows := lz4bVerdict_allows hratio hexp hx
      have hans := lz4bDecoder_drains f hdrains.done hdrains.unread
      rw [hx]
      refine (feedTurn_delivers ws (hdrains.opts_eq ▸ hallows) hdrains.unfinished hdrains.counted
        hdrains.later hdrains.text hans).mono (fun f' hf' => ?_) fun r hr => hr
      obtain ⟨hdrains', hstage, hlt, hroom⟩ := hf'
      refine ⟨.inr ⟨x, rfl, hdrains.opts_eq ▸ hdrains'⟩, ?_⟩
      rw [lz4bMeasure, lz4bMeasure, if_pos hdrains.done, if_pos hdrains'.done, if_neg hroom, hstage,
        List.length_drop]
      split_ifs <;> omega
  · obtain ⟨hfin, -, hout⟩ := decoderNew_fresh hnew
    obtain ⟨-, hstate⟩ := decoderNew_ok hnew
    have hstate : d.state = lz4bNew false levelDefault (some d.opts) :=
      (Except.ok.inj hstate).symm
    have hinput : d.state.input = [] := by rw [hstate]; rfl
    have hstart (unread : List UInt8) (later : List (List UInt8))
        (hsplit : unread ++ later.flatten = b)
        (hfront : (unread :: later).dropLast.flatten.length = front) :
        Lz4bGathers d.opts front b ⟨d, unread, later, room, 0, []⟩ := by
      refine ⟨rfl, hfin, ?_, hout, rfl, ?_, ?_, ?_⟩
      · change d.state = { lz4bNew false levelDefault (some d.opts) with input := d.state.input }
        rw [hstate]
      · exact (congrArg List.length hinput).le.trans (Nat.zero_le _)
      · exact (congrArg (· ++ unread ++ later.flatten) hinput).trans hsplit
      · exact (congrArg (·.length + _) hinput).trans ((Nat.zero_add _).trans hfront)
    cases chunks with
    | nil => exact hstart [] [] hcode rfl
    | cons chunk later => exact hstart chunk later hcode rfl

/-! ## The contract -/

/-- Which blocks are valid, and for which text: `LZ4_decompress_safe` says so of a destination of
the text's own size, as far as its `int` sizes go. -/
structure Lz4Valid (Z : Lz4) where
  Block : List UInt8 → List UInt8 → Prop
  accepts : ∀ {b x}, b.length ≤ intMax → x.length ≤ intMax →
    (Z.decompressSafe b x.length = some x ↔ Block b x)
  ne_nil : ∀ {b x}, Block b x → b ≠ []

/-- The block is valid, and its text has the expected size, within `max_output`. -/
def Lz4bSuccess (J : Lz4Valid Z) (b : List UInt8) (o : DecoderOpts) : Prop :=
  (∃ x, J.Block b x ∧ x.length = o.expectedSize.toNat) ∧
    (o.maxOutput = 0 ∨ o.expectedSize ≤ o.maxOutput)

/-- `max_output` is less than the expected size, and than the text of the block. -/
def Lz4bExceeds (J : Lz4Valid Z) (b : List UInt8) (o : DecoderOpts) : Prop :=
  o.maxOutput ≠ 0 ∧ o.maxOutput < o.expectedSize ∧
    ∃ x, J.Block b x ∧ o.maxOutput.toNat < x.length

/-- What the two limits mean, of the block's own size. -/
structure Lz4bContract (J : Lz4Valid Z) (b : List UInt8) (o : DecoderOpts) (r : FeedEnd) :
    Prop where
  success : r.status = .streamEnd ↔ Lz4bSuccess J b o
  outputLimit : r.status = .errOutputLimit → Lz4bExceeds J b o
  invalidData : ¬ Lz4bSuccess J b o → ¬ Lz4bExceeds J b o → r.status = .errInvalidData

/-- Where the decoder keeps to it: it refuses for the limits alone only blocks that exceed them,
and the blocks it should decode are ones that liblz4 can. -/
structure Lz4bKeeps (J : Lz4Valid Z) (b : List UInt8) (o : DecoderOpts) (front : ℕ) : Prop where
  refused : o.maxOutput ≠ 0 → o.maxOutput < o.expectedSize → front ≤ lz4MaxInputSize →
    ∃ x, J.Block b x ∧ o.maxOutput.toNat < x.length
  decoded : Lz4bSuccess J b o → b.length ≤ lz4MaxInputSize ∧ o.expectedSize.toNat ≤ intMax

theorem lz4bSuccess_iff (J : Lz4Valid Z) (o : DecoderOpts) : Lz4bSuccess J b o ↔
    (∃ x, J.Block b x ∧ x.length = o.expectedSize.toNat) ∧
      ¬ (o.maxOutput ≠ 0 ∧ o.maxOutput < o.expectedSize) := by
  rw [Lz4bSuccess, not_and, UInt64.not_lt, ne_eq, ← or_iff_not_imp_left]

/-- The decoder finds the text of every valid block of the expected size that liblz4 can decode,
and nothing else. -/
theorem lz4bExact_iff (J : Lz4Valid Z) {want : ℕ} (hb : b.length ≤ intMax)
    (hwant : want ≤ intMax) : lz4bExact Z b want = some x ↔ J.Block b x ∧ x.length = want := by
  constructor
  · intro h
    obtain rfl := lz4bExact_length h
    unfold lz4bExact at h
    split at h
    · next htext =>
      split_ifs at h
      obtain rfl := Option.some.inj h
      exact ⟨(J.accepts hb hwant).mp htext, rfl⟩
    · cases h
  · rintro ⟨hx, rfl⟩
    rw [lz4bExact, (J.accepts hb hwant).mpr hx]
    exact if_pos rfl

theorem lz4bVerdict_eq (Z : Lz4) (o : DecoderOpts) (front : ℕ) (b : List UInt8) :
    lz4bVerdict Z o front b =
      if lz4MaxInputSize < front then .error .errInvalidData
      else if o.maxOutput ≠ 0 ∧ o.maxOutput < o.expectedSize then .error .errOutputLimit
      else if intMax < o.expectedSize.toNat ∨ b = [] ∨ lz4MaxInputSize < b.length then
        .error .errInvalidData
      else match lz4bExact Z b o.expectedSize.toNat with
        | none => .error .errInvalidData
        | some text => .ok text := rfl

/-- The verdict, where neither the buffers nor the limits alone decide it. -/
theorem lz4bVerdict_looks (J : Lz4Valid Z) {o : DecoderOpts} (hfront : front ≤ lz4MaxInputSize)
    (hwithin : ¬ (o.maxOutput ≠ 0 ∧ o.maxOutput < o.expectedSize)) {r : FeedEnd}
    (hr : Lz4bEnds (lz4bVerdict Z o front b) r) :
    (r.status = .streamEnd ∧ (b.length ≤ lz4MaxInputSize ∧ o.expectedSize.toNat ≤ intMax) ∧
        ∃ x, J.Block b x ∧ x.length = o.expectedSize.toNat) ∨
      r.status = .errInvalidData ∧ ∀ x, J.Block b x → x.length = o.expectedSize.toNat →
        ¬ (b.length ≤ lz4MaxInputSize ∧ o.expectedSize.toNat ≤ intMax) := by
  rw [lz4bVerdict_eq, if_neg (Nat.not_lt.mpr hfront), if_neg hwithin] at hr
  by_cases hbad : intMax < o.expectedSize.toNat ∨ b = [] ∨ lz4MaxInputSize < b.length
  · rw [if_pos hbad] at hr
    refine .inr ⟨hr, fun x hx hlen hfits => ?_⟩
    rcases hbad with h | h | h
    · omega
    · exact J.ne_nil hx h
    · omega
  rw [if_neg hbad] at hr
  rw [not_or, not_or, Nat.not_lt, Nat.not_lt] at hbad
  obtain ⟨hwant, -, hb⟩ := hbad
  have hint : b.length ≤ intMax := hb.trans (by norm_num [lz4MaxInputSize, intMax])
  cases htext : lz4bExact Z b o.expectedSize.toNat with
  | none =>
    rw [htext] at hr
    refine .inr ⟨hr, fun x hx hlen _ => ?_⟩
    rw [(lz4bExact_iff J hint hwant).mpr ⟨hx, hlen⟩] at htext
    cases htext
  | some text =>
    rw [htext] at hr
    refine .inl ⟨?_, ⟨hb, hwant⟩, text, (lz4bExact_iff J hint hwant).mp htext⟩
    rw [show r = ⟨.streamEnd, text⟩ from hr]

/-- An end with the verdict keeps to the contract exactly where the decoder can. -/
theorem Lz4bEnds.contract_iff (J : Lz4Valid Z) {o : DecoderOpts} {r : FeedEnd}
    (hfront : front ≤ b.length) (hr : Lz4bEnds (lz4bVerdict Z o front b) r) :
    Lz4bContract J b o r ↔ Lz4bKeeps J b o front := by
  by_cases hlong : lz4MaxInputSize < front
  · rw [lz4bVerdict_eq, if_pos hlong] at hr
    have hst : r.status = .errInvalidData := hr
    have hend : r.status ≠ .streamEnd := by simp [hst]
    constructor
    · exact fun h => ⟨fun _ _ hle => by omega, fun hs => absurd (h.success.mpr hs) hend⟩
    · intro h
      refine ⟨⟨fun he => absurd he hend, fun hs => ?_⟩, fun hlim => by simp [hst] at hlim,
        fun _ _ => hst⟩
      have := (h.decoded hs).1
      omega
  by_cases hmax : o.maxOutput ≠ 0 ∧ o.maxOutput < o.expectedSize
  · rw [lz4bVerdict_eq, if_neg hlong, if_pos hmax] at hr
    have hst : r.status = .errOutputLimit := hr
    have hend : r.status ≠ .streamEnd := by simp [hst]
    have hfails : ¬ Lz4bSuccess J b o := fun hs => ((lz4bSuccess_iff J o).mp hs).2 hmax
    constructor
    · exact fun h => ⟨fun _ _ _ => (h.outputLimit hst).2.2, fun hs => absurd hs hfails⟩
    · intro h
      have hexceeds : Lz4bExceeds J b o :=
        ⟨hmax.1, hmax.2, h.refused hmax.1 hmax.2 (Nat.not_lt.mp hlong)⟩
      exact ⟨⟨fun he => absurd he hend, fun hs => absurd hs hfails⟩, fun _ => hexceeds,
        fun _ hnot => absurd hexceeds hnot⟩
  · have hsuccess : Lz4bSuccess J b o ↔ ∃ x, J.Block b x ∧ x.length = o.expectedSize.toNat := by
      rw [lz4bSuccess_iff]
      exact and_iff_left hmax
    have hrefused : o.maxOutput ≠ 0 → o.maxOutput < o.expectedSize → front ≤ lz4MaxInputSize →
        ∃ x, J.Block b x ∧ o.maxOutput.toNat < x.length := fun h0 hlt => absurd ⟨h0, hlt⟩ hmax
    rcases lz4bVerdict_looks J (Nat.not_lt.mp hlong) hmax hr with ⟨hst, hfits, htext⟩ | ⟨hst, hnone⟩
    · have hs := hsuccess.mpr htext
      exact iff_of_true ⟨iff_of_true hst hs, fun hlim => by simp [hst] at hlim,
        fun hnot => absurd hs hnot⟩ ⟨hrefused, fun _ => hfits⟩
    · have hend : r.status ≠ .streamEnd := by simp [hst]
      constructor
      · exact fun h => ⟨hrefused, fun hs => absurd (h.success.mpr hs) hend⟩
      · intro h
        refine ⟨⟨fun he => absurd he hend, fun hs => ?_⟩, fun hlim => by simp [hst] at hlim,
          fun _ _ => hst⟩
        obtain ⟨x, hx, hlen⟩ := hsuccess.mp hs
        exact absurd (h.decoded hs) (hnone x hx hlen)

/-- With an expected size the decoder's answer is the one the two limits mean for the block's own
size, exactly where a limit below the expected size is also below the block's, and the block is
one that liblz4 can decode. -/
theorem lz4bExpected_contract (J : Lz4Valid Z) (ws : Windows) {d : Decoder (lz4BlockCodec Z)}
    {lookup : CodecId → Option CodecVtable}
    (hnew : decoderNew lookup opts = .ok ⟨lz4BlockCodec Z, d⟩) (hratio : d.opts.maxRatio = 0)
    (hexp : d.opts.hasExpected = true) {chunks : List (List UInt8)}
    (hb : chunks.flatten.length < wordSize) (room : ℕ) :
    ∃ r, Returns (feedTurn ws) (Feed.start d room chunks) r ∧
      (Lz4bContract J chunks.flatten d.opts r ↔
        Lz4bKeeps J chunks.flatten d.opts chunks.dropLast.flatten.length) := by
  obtain ⟨r, hr, hends⟩ := lz4bFeed_ends ws hnew hratio hexp rfl hb room
  refine ⟨r, hr, hends.contract_iff J ?_⟩
  exact ((List.dropLast_sublist chunks).flatten).length_le

def refLz4Valid : Lz4Valid refLz4 where
  Block b x := b = lz4Literals x
  accepts {b x} hb hx := by
    refine ⟨fun h => (refLz4Judges.sound hb hx h).1, ?_⟩
    rintro rfl
    exact refLz4Blocks.safe rfl hb hx le_rfl
  ne_nil h := refLz4Blocks.ne_nil h

def twoBytes (maxOutput : UInt64) : DecoderOpts where
  structSize := 32
  codec := codecLz4Block
  maxOutput := maxOutput
  maxRatio := 0
  flags := decExpectedSize
  expectedSize := 2

def twoByteDecoder (maxOutput : UInt64) : Decoder (lz4BlockCodec refLz4) where
  state := lz4bNew false levelDefault (some (twoBytes maxOutput))
  opts := twoBytes maxOutput
  finished := false
  totalIn := 0
  totalOut := 0

/-- The two bytes, expected and allowed. -/
theorem lz4bExpected_contract_two : ∃ r, Returns (feedTurn byteWindows)
      (Feed.start (twoByteDecoder 2) 1 [[0x20, 0x61], [0x62]]) r ∧
    (Lz4bContract refLz4Valid [0x20, 0x61, 0x62] (twoBytes 2) r ↔
      Lz4bKeeps refLz4Valid [0x20, 0x61, 0x62] (twoBytes 2) 2) :=
  lz4bExpected_contract refLz4Valid byteWindows
    (show decoderNew lz4BlockOnly (twoBytes 2) = .ok ⟨_, twoByteDecoder 2⟩ from rfl) rfl (by decide)
    (by decide) 1

/-- A corrupt block, of which two bytes are expected and one is allowed, is refused for its
size. -/
theorem lz4bExpected_unread :
    ¬ ∀ (Z : Lz4) (J : Lz4Valid Z) (lookup : CodecId → Option CodecVtable) (opts : DecoderOpts)
      (d : Decoder (lz4BlockCodec Z)) (_ : decoderNew lookup opts = .ok ⟨lz4BlockCodec Z, d⟩)
      (_ : d.opts.maxRatio = 0) (_ : d.opts.hasExpected = true) (chunks : List (List UInt8))
      (_ : chunks.flatten.length < wordSize) (room : ℕ) (ws : Windows) (r : FeedEnd)
      (_ : Returns (feedTurn ws) (Feed.start d room chunks) r),
      Lz4bContract J chunks.flatten d.opts r := by
  intro hall
  have hreturns : Returns (feedTurn byteWindows) (Feed.start (twoByteDecoder 1) 1 [[0xFF]])
      ⟨.errOutputLimit, []⟩ := .done rfl
  have hcontract := hall refLz4 refLz4Valid lz4BlockOnly (twoBytes 1) (twoByteDecoder 1)
    rfl rfl (by decide) [[0xFF]] (by simp) 1 byteWindows _ hreturns
  obtain ⟨-, -, x, hx, hlt⟩ := hcontract.outputLimit rfl
  have hlen := congrArg List.length (show [0xFF] = lz4Literals x from hx)
  have hlt : 1 < x.length := hlt
  rw [lz4Literals_length, List.length_singleton] at hlen
  split_ifs at hlen <;> omega

end Zukomp
