import Zukomp.Core.Limits

/-! # When a stream end can be believed

`zu_decoder_process` sets `finished` before it checks the size and the ratio of the
stream that ended, and answers every later call from that flag alone.
-/

namespace Zukomp

variable {v : CodecVtable}

/-- The limits a stream end vouches for, in exact integers. -/
structure Decoder.WithinLimits (d : Decoder v) : Prop where
  size : d.opts.hasExpected → d.totalOut = d.opts.expectedSize
  ratio : d.opts.maxRatio ≠ 0 →
    d.totalOut.toNat ≤ d.opts.maxRatio.toNat * d.totalIn.toNat
  output : d.opts.maxOutput ≠ 0 → d.totalOut ≤ d.opts.maxOutput

/-- The saturating product never allows more than the exact one. -/
theorem ratioAllowed_exact {maxRatio : UInt32} {totalIn n : UInt64} (hr : maxRatio ≠ 0)
    (h : n ≤ ratioAllowed maxRatio totalIn) : n.toNat ≤ maxRatio.toNat * totalIn.toNat := by
  have hr' : 0 < maxRatio.toNat := by
    rcases Nat.eq_zero_or_pos maxRatio.toNat with h0 | h0
    · exact absurd (UInt32.toNat_inj.mp (by simpa using h0)) hr
    · exact h0
  have hn := n.toNat_lt
  have hq : ((0xFFFFFFFFFFFFFFFF : UInt64) / maxRatio.toUInt64).toNat =
      (2 ^ 64 - 1) / maxRatio.toNat := by simp [UInt64.toNat_div]
  unfold ratioAllowed at h
  split_ifs at h with h0 h1
  · simp only [UInt64.le_iff_toNat_le, UInt64.toNat_zero] at h
    omega
  · -- the product overflows, so it is beyond every 64-bit count
    rw [UInt64.lt_iff_toNat_lt, hq, Nat.div_lt_iff_lt_mul hr'] at h1
    rw [Nat.mul_comm]
    omega
  · rw [UInt64.lt_iff_toNat_lt, hq, not_lt, Nat.le_div_iff_mul_le hr'] at h1
    simp only [UInt64.le_iff_toNat_le, UInt64.toNat_mul, UInt32.toNat_toUInt64] at h
    rw [Nat.mod_eq_of_lt (by omega)] at h
    rw [Nat.mul_comm]
    exact h

theorem DecoderOpts.overStatus_isError (o : DecoderOpts) : o.overStatus.isError = true := by
  unfold overStatus ceiling
  split_ifs <;> rfl

/-- A refusal or a trailing verdict is always reported as an error. -/
theorem Decoder.verdict_of_not_error {d : Decoder v} {st : Status} {capped unread : Bool}
    {allowed produced : ℕ}
    (h : ((d.verdict st capped allowed produced unread).status st).isError = false) :
    d.verdict st capped allowed produced unread = .passed := by
  have hover := d.opts.overStatus_isError
  revert h
  unfold verdict
  split_ifs <;> intro h
  any_goals rfl
  all_goals
    simp only [Verdict.status] at h
    first
      | rw [hover] at h; cases h
      | cases h

/-- A settled call is judged once, on the handle it leaves. -/
theorem Decoder.settle_judged (d : Decoder v) (buf : Buffer) (r : Status × v.Dec × Buffer) :
    ∃ capped allowed produced unread,
      (d.settle buf r).dec.finished = (r.1 == .streamEnd) ∧
      (d.settle buf r).status =
        ((d.settle buf r).dec.verdict r.1 capped allowed produced unread).status r.1 ∧
      ((d.settle buf r).refused = false ↔
        ∀ st, (d.settle buf r).dec.verdict r.1 capped allowed produced unread ≠ .refused st) := by
  refine ⟨_, _, _, _, rfl, rfl, ?_⟩
  simp only [settle]
  split <;> simp_all

/-- The output and ratio checks of the driver, on the counters of a handle. -/
def Decoder.overLimits (d : Decoder v) : Bool :=
  (d.opts.maxOutput ≠ 0 ∧ d.opts.maxOutput < d.totalOut) ∨
    (d.opts.maxRatio ≠ 0 ∧ 0 < d.totalOut ∧ ratioAllowed d.opts.maxRatio d.totalIn < d.totalOut)

theorem Decoder.withinLimits_of_checks {d : Decoder v}
    (hsize : d.opts.hasExpected → d.totalOut = d.opts.expectedSize)
    (hover : d.overLimits = false) : d.WithinLimits := by
  simp only [overLimits, decide_eq_false_iff_not, not_or] at hover
  obtain ⟨hout, hratio⟩ := hover
  refine ⟨hsize, fun hr => ?_, fun hm => by simpa [hm] using hout⟩
  rcases eq_or_ne d.totalOut 0 with h0 | h0
  · simp [h0]
  · have hpos : 0 < d.totalOut := UInt64.pos_iff_ne_zero.mpr h0
    exact ratioAllowed_exact hr (by simpa [hr, hpos] using hratio)

theorem Decoder.checks_of_passed {d : Decoder v} {capped unread : Bool} {allowed produced : ℕ}
    (h : d.verdict .streamEnd capped allowed produced unread = .passed) :
    (d.opts.hasExpected → d.totalOut = d.opts.expectedSize) ∧ d.overLimits = false := by
  unfold verdict at h
  split_ifs at h with h1 h2 h3 h4 h5 h6 h7
  refine ⟨fun he => by simpa [he] using h1, ?_⟩
  simp only [overLimits, decide_eq_false_iff_not, not_or]
  exact ⟨h5, by simpa using h7⟩

namespace Session

/-- A call whose stream end can be believed: no limit has refused an earlier call of the
stream, and a stream that has ended is not over its output or ratio limit. -/
def EndSafe (s : Session v) : DecoderOp → Prop
  | .process _ _ => s.refused = false ∧ (s.dec.finished → s.dec.overLimits = false)
  | .reset _ => True

/-- Unless a limit refused a call of it, a stream that has ended has its expected size. -/
def SizeKept (s : Session v) : Prop :=
  s.refused = false → s.dec.finished → s.dec.opts.hasExpected →
    s.dec.totalOut = s.dec.opts.expectedSize

theorem sizeKept_start {d : Decoder v} (h : d.finished = false) : (start d).SizeKept := by
  simp [SizeKept, start, h]

/-- What a reset leaves: a stream at its start, or the session with another codec state. -/
theorem next_reset (s : Session v) (opts : Option DecoderOpts) :
    (∃ d, d.finished = false ∧ s.next (.reset opts) = start d) ∨
      ∃ state, s.next (.reset opts) = { s with dec := { s.dec with state := state } } := by
  have hcases := decoderReset_cases s.dec opts
  simp only [next]
  generalize decoderReset s.dec opts = r at hcases ⊢
  obtain ⟨st, d⟩ := r
  simp only at hcases ⊢
  rcases hcases with ⟨hok, hfin, _, _⟩ | ⟨hne, state, hd⟩
  · subst hok
    exact .inl ⟨d, hfin, rfl⟩
  · subst hd
    refine .inr ⟨state, ?_⟩
    cases st <;> first | rfl | exact absurd rfl hne

theorem SizeKept.next {s : Session v} (h : s.SizeKept) (op : DecoderOp) : (s.next op).SizeKept := by
  cases op with
  | process buf mode =>
    intro href
    simp only [Session.next, Bool.or_eq_false_iff] at href ⊢
    rcases decoderCall_cases s.dec buf mode with ⟨hd, _⟩ | ⟨_, _, _, hcall⟩
    · rw [hd]
      exact h href.1
    · rw [hcall] at href ⊢
      obtain ⟨capped, allowed, produced, unread, hfin, _, hjudged⟩ := s.dec.settle_judged buf
        (v.decoderProcess s.dec.state (s.dec.shown buf) mode)
      intro hend hexp
      rw [hfin, beq_iff_eq] at hend
      by_contra hne
      exact hjudged.mp href.2 .errInvalidData (by simp [Decoder.verdict, hend, hexp, hne])
  | reset opts =>
    rcases s.next_reset opts with ⟨d, hfin, hd⟩ | ⟨state, hd⟩
    · rw [hd]
      exact sizeKept_start hfin
    · rw [hd]
      exact h

/-- A caller that stops at the first error makes only end-safe calls. -/
theorem endSafe_of_no_error {lookup : CodecId → Option CodecVtable} {opts : DecoderOpts}
    {d : Decoder v} (hnew : decoderNew lookup opts = .ok ⟨v, d⟩) {s : Session v}
    (hs : Reached d s) (herr : s.errored = false) (op : DecoderOp) : s.EndSafe op := by
  obtain ⟨hfin, _, _⟩ := decoderNew_fresh hnew
  have hinv : s.errored = false →
      s.refused = false ∧ (s.dec.finished → s.dec.overLimits = false) := by
    refine Run.invariant (fun s => s.errored = false →
      s.refused = false ∧ (s.dec.finished → s.dec.overLimits = false))
      (fun _ => ⟨rfl, by simp [start, hfin]⟩) (fun s op ih _ => ?_) hs
    cases op with
    | process buf mode =>
      simp only [next, Bool.or_eq_false_iff]
      rintro ⟨he, ho⟩
      obtain ⟨hr, hw⟩ := ih he
      rcases decoderCall_cases s.dec buf mode with ⟨hd, _, href, _⟩ | ⟨_, _, _, hcall⟩
      · rw [hd]
        exact ⟨⟨hr, href⟩, hw⟩
      · rw [hcall] at ho ⊢
        obtain ⟨capped, allowed, produced, unread, hf, hst, hjudged⟩ := s.dec.settle_judged buf
          (v.decoderProcess s.dec.state (s.dec.shown buf) mode)
        have hpassed := Decoder.verdict_of_not_error (hst ▸ ho)
        refine ⟨⟨hr, hjudged.mpr (by simp [hpassed])⟩, fun hend => ?_⟩
        rw [hf, beq_iff_eq] at hend
        rw [hend] at hpassed
        exact (Decoder.checks_of_passed hpassed).2
    | reset opts =>
      rcases s.next_reset opts with ⟨d, hfin, hd⟩ | ⟨state, hd⟩
      · rw [hd]
        exact fun _ => ⟨rfl, by simp [start, hfin]⟩
      · rw [hd]
        exact ih
  cases op with
  | process buf mode => exact hinv herr
  | reset opts => trivial

end Session

/-- The identity decoder told to expect 5 bytes. -/
def expectingFive : Decoder identityCodec where
  state := ()
  opts := { identityDecoder.opts with flags := decExpectedSize, expectedSize := 5 }
  finished := false
  totalIn := 0
  totalOut := 0

/-- In every run of end-safe calls, a stream end is within the size, ratio and output
limits and follows no refusal. A handle whose stream ended outside its limits answers
every later call without input with a stream end. -/
theorem streamEnd_sound {lookup : CodecId → Option CodecVtable} {opts : DecoderOpts}
    {d : Decoder v} (hnew : decoderNew lookup opts = .ok ⟨v, d⟩) :
    (∀ s, Session.Run Session.EndSafe d s → ∀ buf mode, s.EndSafe (.process buf mode) →
      (decoderProcess s.dec buf mode).1 = .streamEnd →
        (decoderProcess s.dec buf mode).2.1.WithinLimits ∧ s.refused = false) ∧
    (∀ s, Session.Reached d s → s.dec.finished = true → ¬ s.dec.WithinLimits →
      ∀ buf mode, checkBuffer buf = .ok → buf.srcPos = buf.srcSize →
        (decoderProcess s.dec buf mode).1 = .streamEnd ∧
          ¬ (decoderProcess s.dec buf mode).2.1.WithinLimits) := by
  obtain ⟨hfresh, _, _⟩ := decoderNew_fresh hnew
  constructor
  · intro s hs buf mode hsafe hend
    have hkept : s.SizeKept :=
      hs.invariant Session.SizeKept (Session.sizeKept_start hfresh) (fun _ op h _ => h.next op)
    refine ⟨?_, hsafe.1⟩
    simp only [decoderProcess] at hend ⊢
    rcases decoderCall_cases s.dec buf mode with ⟨hd, _, _, hfin⟩ | ⟨_, _, _, hcall⟩
    · rw [hd]
      have hfin := hfin hend
      exact Decoder.withinLimits_of_checks (hkept hsafe.1 hfin) (hsafe.2 hfin)
    · rw [hcall] at hend ⊢
      obtain ⟨capped, allowed, produced, unread, _, hst, _⟩ := s.dec.settle_judged buf
        (v.decoderProcess s.dec.state (s.dec.shown buf) mode)
      have hpassed := Decoder.verdict_of_not_error (by rw [← hst, hend]; rfl)
      rw [hst, hpassed, Verdict.status] at hend
      rw [hend] at hpassed
      obtain ⟨hsize, hover⟩ := Decoder.checks_of_passed hpassed
      exact Decoder.withinLimits_of_checks hsize hover
  · intro s _ hfin hout buf mode hbuf hpos
    have hcall : decoderCall s.dec buf mode = ⟨.streamEnd, s.dec, buf, false⟩ := by
      simp [decoderCall, hbuf, hfin, hpos]
    simp only [decoderProcess, hcall]
    exact ⟨trivial, hout⟩

/-- An empty stream ended, was refused for its size, and ends again when asked again. -/
theorem streamEnd_after_refusal :
    ¬ ∀ (v : CodecVtable) (lookup : CodecId → Option CodecVtable) (opts : DecoderOpts)
      (d : Decoder v) (_ : decoderNew lookup opts = .ok ⟨v, d⟩) (s : Session v)
      (_ : Session.Reached d s) (buf : Buffer) (mode : Flush)
      (_ : (decoderProcess s.dec buf mode).1 = .streamEnd),
      (decoderProcess s.dec buf mode).2.1.opts.hasExpected →
        (decoderProcess s.dec buf mode).2.1.totalOut =
          (decoderProcess s.dec buf mode).2.1.opts.expectedSize := by
  intro hall
  have h := hall identityCodec identityOnly expectingFive.opts expectingFive rfl
    ((Session.start expectingFive).next (.process (.ofParts [] 8) .finish))
    (.call .new _ trivial) (.ofParts [] 8) .finish (by decide)
  exact absurd (h (by decide)) (by decide)

/-- Five bytes where five are expected, the first two in an earlier call. -/
theorem streamEnd_sound_identity :
    let s := (Session.start expectingFive).next (.process (.ofParts [1, 2] 8) .run)
    s.dec.totalOut = 2 ∧
      (decoderProcess s.dec (.ofParts [3, 4, 5] 8) .finish).1 = .streamEnd ∧
      (decoderProcess s.dec (.ofParts [3, 4, 5] 8) .finish).2.1.WithinLimits :=
  ⟨by decide, by decide,
    ((streamEnd_sound (show decoderNew identityOnly expectingFive.opts = _ from rfl)).1
      _ (.call .new (.process (.ofParts [1, 2] 8) .run) ⟨rfl, by simp [Session.start, expectingFive]⟩)
      (.ofParts [3, 4, 5] 8) .finish ⟨by decide, by decide⟩ (by decide)).1⟩

end Zukomp
