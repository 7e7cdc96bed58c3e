import Zukomp.Core.Sink

/-! # The limits over a whole-buffer run

A run of the whole-buffer loop keeps both limits of its decoder, whether it succeeds or not: the sink
never holds more than `max_output` bytes, and never more than one chunk beyond the ratio.
-/

namespace Zukomp

open Library

variable {v : CodecVtable}

theorem Decoder.within_of_passed {d : Decoder v} {st : Status} {capped unread : Bool}
    {allowed produced : ℕ} (hst : st ≠ .errOutputLimit)
    (h : d.verdict st capped allowed produced unread = .passed) : d.overLimits = false := by
  unfold verdict at h
  split_ifs at h with h1 h2 h3 h4 h5 h6 h7
  simp only [overLimits, decide_eq_false_iff_not, not_or]
  exact ⟨h5, by simpa [hst] using h7⟩

theorem Decoder.ratio_le {d : Decoder v} (h : d.overLimits = false) (hr : d.opts.maxRatio ≠ 0) :
    d.totalOut.toNat ≤ d.opts.maxRatio.toNat * d.totalIn.toNat := by
  simp only [overLimits, decide_eq_false_iff_not, not_or] at h
  rcases eq_or_ne d.totalOut 0 with h0 | h0
  · simp [h0]
  · have hpos : 0 < d.totalOut := UInt64.pos_iff_ne_zero.mpr h0
    exact ratioAllowed_exact hr (by simpa [hr, hpos] using h.2)

/-- What a call makes of a handle that has given `given` bytes, over a fresh window: it accounts for
what it takes and gives, and is within the limits unless it fails or does nothing. -/
theorem decoderProcess_accounted (hv : Serves v.decoderProcess) {d : Decoder v} {taken given : ℕ}
    (h : Session.Accounted ⟨d, taken, given, false, false⟩) (slice : List UInt8) (room : ℕ)
    (mode : Flush) :
    let c := decoderProcess d (.ofParts slice room) mode
    ∃ used, c.2.2.unread = slice.drop used ∧ used ≤ slice.length ∧ c.2.2.stored.length ≤ room ∧
      c.2.1.opts = d.opts ∧
      Session.Accounted ⟨c.2.1, taken + used, given + c.2.2.stored.length, false, false⟩ ∧
      (c.1.isError = false → c.2 = (d, .ofParts slice room) ∨ c.2.1.overLimits = false) := by
  have hbuf : checkBuffer (.ofParts slice room) = .ok := checkBuffer_ofParts ..
  intro c
  rcases decoderCall_cases d (.ofParts slice room) mode with ⟨hd, hb, -⟩ | ⟨-, -, -, hcall⟩
  · have hc : c.2 = (d, .ofParts slice room) := Prod.ext hd hb
    rw [hc]
    exact ⟨0, by simp, by simp, by simp, rfl, by simpa using h, fun _ => .inl rfl⟩
  · have hserves := decoderProcess_serves hv d (.ofParts slice room) mode hbuf
    have hcodec := hv d.state (d.shown (.ofParts slice room)) mode (d.checkBuffer_shown hbuf)
    have hset := d.settled (.ofParts slice room) hbuf hcodec.toAdvances
    rw [← hcall] at hset
    obtain ⟨o, hstored, hpos⟩ := hserves.stores
    have hpos' : c.2.2.dstPos = c.2.2.stored.length := by
      have hsum : c.2.2.dstPos = 0 + o.length := hpos
      have hall : c.2.2.stored = [] ++ o := hstored
      rw [hall, hsum]
      simp
    have hroom : c.2.2.stored.length ≤ room := hpos' ▸ hserves.dst_le_size
    have hsrc : c.2.2.src = some slice := hserves.src
    refine ⟨c.2.2.srcPos, by rw [Buffer.unread, hsrc]; rfl, hserves.src_le_size, hroom, hset.opts,
      ?_, fun hst => .inr ?_⟩
    · have hacc := h.settled hset
      have hdst : (decoderCall d (.ofParts slice room) mode).buf.dstPos -
          (Buffer.ofParts slice room).dstPos = c.2.2.stored.length := hpos' ▸ rfl
      rw [hdst] at hacc
      exact ⟨hacc.totalIn, hacc.totalOut, hacc.admitted, hacc.exact⟩
    · obtain ⟨capped, allowed, produced, unread, -, hstatus, -⟩ := d.settle_judged
        (.ofParts slice room) (v.decoderProcess d.state (d.shown (.ofParts slice room)) mode)
      rw [← hcall] at hstatus
      have hst' : (decoderCall d (.ofParts slice room) mode).status.isError = false := hst
      have hpassed := Decoder.verdict_of_not_error (hstatus ▸ hst')
      rw [hpassed, Verdict.status] at hstatus
      refine Decoder.within_of_passed (fun hlimit => ?_) hpassed
      rw [hstatus, hlimit] at hst'
      cases hst'

namespace Whole

/-- What the handle has taken of the source. -/
def taken (r : RunOpts) (x : Whole (Decoder v)) : ℕ :=
  r.src.length - (x.slice.length + x.later.length)

/-- A run that has kept its limits so far: `opts` are those of its handle. -/
structure Budgeted (r : RunOpts) (opts : DecoderOpts) (x : Whole (Decoder v)) : Prop where
  same : x.handle.opts = opts
  left : x.slice.length + x.later.length ≤ r.src.length
  fits : x.out.used.length < wordSize
  accounted : Session.Accounted ⟨x.handle, x.taken r, x.out.used.length, false, false⟩
  ratio : opts.maxRatio ≠ 0 → x.out.used.length ≤ opts.maxRatio.toNat * x.taken r

/-- The sink at the end of a run that has kept its limits. -/
structure InBudget (r : RunOpts) (opts : DecoderOpts) (e : Status × OutBuf) : Prop where
  output : opts.maxOutput ≠ 0 → e.2.used.length ≤ opts.maxOutput.toNat
  ratio : opts.maxRatio ≠ 0 → e.2.used.length ≤ opts.maxRatio.toNat * r.src.length + r.outChunk
  passed : e.1.isError = false → opts.maxRatio ≠ 0 →
    e.2.used.length ≤ opts.maxRatio.toNat * r.src.length

end Whole

theorem Session.Accounted.given_le {s : Session v} (h : s.Accounted)
    (hmax : s.dec.opts.maxOutput ≠ 0) : s.given ≤ s.dec.opts.maxOutput.toNat := by
  have hceil : s.dec.opts.ceiling.isSome := by
    unfold DecoderOpts.ceiling
    split_ifs <;> simp
  rw [← h.exact hceil]
  exact UInt64.le_iff_toNat_le.mp (h.admitted.1 hmax)

namespace Whole

variable {r : RunOpts} {opts : DecoderOpts} {x : Whole (Decoder v)}

theorem Budgeted.refill (h : x.Budgeted r opts) : (x.refill r).Budgeted r opts := by
  have hlen : (x.refill r).slice.length + (x.refill r).later.length =
      x.slice.length + x.later.length := by
    unfold Whole.refill
    split_ifs with hslice
    · simp only [hslice, List.length_take, List.length_drop, List.length_nil]
      omega
    · rfl
  have htaken : (x.refill r).taken r = x.taken r := by rw [taken, taken, hlen]
  refine ⟨?_, hlen ▸ h.left, ?_, ?_, fun hr => ?_⟩
  · rw [refill_handle]
    exact h.same
  · rw [refill_out]
    exact h.fits
  · rw [refill_handle, refill_out, htaken]
    exact h.accounted
  · rw [refill_out, htaken]
    exact h.ratio hr

theorem Budgeted.inBudget (h : x.Budgeted r opts) (st : Status) {out : OutBuf}
    (hused : out.used = x.out.used) : InBudget r opts (st, out) := by
  have htaken : x.taken r ≤ r.src.length := Nat.sub_le ..
  have hratio (hr : opts.maxRatio ≠ 0) :
      out.used.length ≤ opts.maxRatio.toNat * r.src.length :=
    hused ▸ (h.ratio hr).trans (Nat.mul_le_mul_left _ htaken)
  refine ⟨fun hmax => ?_, fun hr => (hratio hr).trans (Nat.le_add_right ..), fun _ => hratio⟩
  have hle := h.accounted.given_le (by rw [h.same]; exact hmax)
  rw [h.same] at hle
  exact hused ▸ hle

/-- A call keeps the limits and, unless it fails, the run goes on within them. -/
theorem Budgeted.call (hv : Serves v.decoderProcess) (h : x.Budgeted r opts)
    (hroom : x.out.used.length + r.outChunk < wordSize) (mode : Flush) :
    let c := decoderProcess x.handle (.ofParts x.slice r.outChunk) mode
    (∀ out : OutBuf, out.used = x.out.used ++ c.2.2.stored → InBudget r opts (c.1, out)) ∧
      (c.1.isError = false → ∀ out : OutBuf, out.used = x.out.used ++ c.2.2.stored → ∀ calls,
        Budgeted r opts ⟨c.2.1, c.2.2.unread, x.later, calls, out⟩) := by
  have hcall := decoderProcess_accounted hv h.accounted x.slice r.outChunk mode
  dsimp only at hcall ⊢
  have hsame : (Buffer.ofParts x.slice r.outChunk).stored = [] := rfl
  generalize Buffer.ofParts x.slice r.outChunk = buf at hcall hsame ⊢
  generalize decoderProcess x.handle buf mode = c at hcall ⊢
  obtain ⟨used, hunread, hread, hstored, hopts, hacc, hpass⟩ := hcall
  have hleft := h.left
  -- what the call took and gave, in the counters of the handle
  have htaken (out : OutBuf) (calls : UInt64) :
      taken r (⟨c.2.1, c.2.2.unread, x.later, calls, out⟩ : Whole (Decoder v)) =
        x.taken r + used := by
    simp only [taken, hunread, List.length_drop]
    omega
  have hin : c.2.1.totalIn.toNat ≤ x.taken r + used := hacc.totalIn ▸ Nat.mod_le ..
  have hout : c.2.1.totalOut.toNat = x.out.used.length + c.2.2.stored.length := by
    have hgiven : c.2.1.totalOut.toNat = (x.out.used.length + c.2.2.stored.length) % wordSize :=
      hacc.totalOut
    rw [hgiven, Nat.mod_eq_of_lt (by omega)]
  have hratio (hst : c.1.isError = false) (hr : opts.maxRatio ≠ 0) :
      x.out.used.length + c.2.2.stored.length ≤ opts.maxRatio.toNat * (x.taken r + used) := by
    rcases hpass hst with hidle | hwithin
    · have hnil : c.2.2.stored = [] := by rw [hidle, hsame]
      rw [hnil, List.length_nil, Nat.add_zero]
      exact (h.ratio hr).trans (Nat.mul_le_mul_left _ (Nat.le_add_right ..))
    · have hle := Decoder.ratio_le hwithin (by rw [hopts, h.same]; exact hr)
      rw [hopts, h.same, hout] at hle
      exact hle.trans (Nat.mul_le_mul_left _ hin)
  have hsrc : x.taken r + used ≤ r.src.length := by
    rw [taken]
    omega
  refine ⟨fun out hused => ⟨fun hmax => ?_, fun hr => ?_, fun hst hr => ?_⟩,
    fun hst out hused calls => ⟨?_, ?_, ?_, ?_, fun hr => ?_⟩⟩
  · have hle := hacc.given_le (by rw [hopts, h.same]; exact hmax)
    rw [hopts, h.same] at hle
    rw [hused, List.length_append]
    exact hle
  · have hle : x.out.used.length ≤ opts.maxRatio.toNat * r.src.length :=
      (h.ratio hr).trans (Nat.mul_le_mul_left _ (show x.taken r ≤ r.src.length from Nat.sub_le ..))
    change out.used.length ≤ _
    rw [hused, List.length_append]
    omega
  · rw [hused, List.length_append]
    exact (hratio hst hr).trans (Nat.mul_le_mul_left _ hsrc)
  · rw [hopts]
    exact h.same
  · change c.2.2.unread.length + x.later.length ≤ r.src.length
    rw [hunread, List.length_drop]
    omega
  · change out.used.length < wordSize
    rw [hused, List.length_append]
    omega
  · rw [htaken, hused, List.length_append]
    exact hacc
  · rw [htaken, hused, List.length_append]
    exact hratio hst hr

end Whole

theorem reserve_room {o o' : OutBuf} {extra : ℕ} (hlt : o.used.length < wordSize)
    (h : reserve o extra = .ok o') : o.used.length + extra < wordSize := by
  unfold reserve at h
  rcases sizeAdd_cases o.used.length extra with ⟨-, hfits⟩ | ⟨hadd, -⟩
  · exact hfits hlt
  · rw [hadd] at h
    cases h

/-- One turn of the loop keeps both limits. -/
theorem wholeTurn_budgeted (hv : Serves v.decoderProcess) {r : RunOpts} {opts : DecoderOpts}
    {x : Whole (Decoder v)} (h : x.Budgeted r opts) :
    Turn (Whole.Budgeted r opts) (Whole.InBudget r opts) (wholeTurn decoderProcess r x) := by
  have hy := h.refill
  unfold wholeTurn
  dsimp only
  generalize x.refill r = y at hy ⊢
  cases hres : reserve y.out r.outChunk with
  | error st => exact hy.inBudget st rfl
  | ok out =>
    have hused : out.used = y.out.used := reserve_used hres
    obtain ⟨hstop, hgo⟩ := hy.call hv (reserve_room hy.fits hres) (y.mode r)
    generalize decoderProcess y.handle (.ofParts y.slice r.outChunk) (y.mode r) = c at hstop hgo ⊢
    rw [← hused] at hstop hgo
    unfold Whole.judge
    dsimp only
    by_cases hend : c.1 = .streamEnd
    · rw [if_pos hend, ← hend]
      exact hstop _ rfl
    rw [if_neg hend]
    by_cases hbad : c.1 ≠ .ok ∧ c.1 ≠ .needInput ∧ c.1 ≠ .needOutput
    · rw [if_pos hbad]
      exact hstop _ rfl
    rw [if_neg hbad]
    have hst : c.1.isError = false := by
      cases hc : c.1 <;> simp_all [Status.isError]
    split_ifs
    · exact ⟨(hstop _ rfl).output, (hstop _ rfl).ratio, by simp [Status.isError]⟩
    · exact hgo hst _ rfl _

/-- A whole-buffer run keeps the limits of its decoder, however it ends: the sink has at most
`max_output` bytes and at most one chunk more than the ratio allows, and if the run does not fail at
most what the ratio allows. -/
theorem whole_inBudget (hv : Serves v.decoderProcess) {r : RunOpts} {d : Decoder v}
    (hin : d.totalIn = 0) (hout : d.totalOut = 0) {e : Status × OutBuf}
    (h : Returns (wholeTurn decoderProcess r) (.start d r .empty) e) :
    Whole.InBudget r d.opts e := by
  have hstart : Whole.Budgeted r d.opts (.start d r .empty) := by
    refine ⟨rfl, by simp [Whole.start], by simp [Whole.start, OutBuf.empty], ?_, fun _ => ?_⟩
    · have htaken : Whole.taken r (Whole.start d r .empty) = 0 := by
        simp [Whole.taken, Whole.start]
      rw [htaken]
      exact Session.accounted_start hin hout
    · simp [Whole.start, OutBuf.empty]
  exact h.keeps (Whole.Budgeted r d.opts) (fun x hx => wholeTurn_budgeted hv hx) hstart

end Zukomp
