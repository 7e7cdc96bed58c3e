import Zukomp.Core.Identity

/-! # The limits of the decoder driver

Whatever the codec does with the two cursors inside its window, the output stays
under both ceilings and the caller's fields come back. A stream end is only as good
as the checks made on it: `finished` is set before they are.
-/

namespace Zukomp

variable {v : CodecVtable}

/-! ## Output ceilings -/

/-- Within both ceilings, those that are set. -/
def DecoderOpts.Admits (o : DecoderOpts) (n : UInt64) : Prop :=
  (o.maxOutput ≠ 0 → n ≤ o.maxOutput) ∧ (o.hasExpected → n ≤ o.expectedSize)

/-- The driver's one ceiling is the tighter of the two. -/
theorem DecoderOpts.admits_iff (o : DecoderOpts) (n : UInt64) :
    o.Admits n ↔ ∀ c status, o.ceiling = some (c, status) → n.toNat ≤ c.toNat := by
  unfold Admits ceiling
  simp only [UInt64.le_iff_toNat_le]
  by_cases hexp : o.hasExpected = true <;> by_cases hmax : o.maxOutput = 0
  · simp [hexp, hmax]
  · by_cases hle : o.expectedSize.toNat ≤ o.maxOutput.toNat
    · simp only [hexp, hmax, hle, ne_eq, not_false_eq_true, forall_const, false_or, and_self,
        if_true, Option.some.injEq, Prod.mk.injEq]
      constructor
      · rintro ⟨_, h⟩ c status ⟨rfl, _⟩
        exact h
      · intro h
        have := h _ _ ⟨rfl, rfl⟩
        omega
    · simp only [hexp, hmax, hle, ne_eq, not_false_eq_true, forall_const, false_or, and_false,
        if_false, if_true, Option.some.injEq, Prod.mk.injEq]
      constructor
      · rintro ⟨h, _⟩ c status ⟨rfl, _⟩
        exact h
      · intro h
        have := h _ _ ⟨rfl, rfl⟩
        omega
  · simp [hexp, hmax]
  · simp only [hexp, hmax, ne_eq, not_false_eq_true, forall_const, false_and, Bool.false_eq_true,
      if_false, if_true, Option.some.injEq, Prod.mk.injEq, IsEmpty.forall_iff, and_true]
    constructor
    · rintro h c status ⟨rfl, _⟩
      exact h
    · intro h
      exact h _ _ ⟨rfl, rfl⟩

/-- The counters of a session account for every byte its calls moved, and the output is
within the ceilings; under a ceiling the output counter is exact. -/
structure Session.Accounted (s : Session v) : Prop where
  totalIn : s.dec.totalIn.toNat = s.taken % wordSize
  totalOut : s.dec.totalOut.toNat = s.given % wordSize
  admitted : s.dec.opts.Admits s.dec.totalOut
  exact : s.dec.opts.ceiling.isSome → s.dec.totalOut.toNat = s.given

theorem Session.accounted_start {d : Decoder v} (hin : d.totalIn = 0) (hout : d.totalOut = 0) :
    (Session.start d).Accounted := by
  refine ⟨?_, ?_, ?_, ?_⟩ <;> simp [Session.start, hin, hout, DecoderOpts.admits_iff]

/-- A call settled by the driver moves the counters with the cursors and stays admitted. -/
theorem Session.Accounted.settled {s : Session v} (h : s.Accounted) {buf : Buffer} {o : Outcome v}
    (ho : s.dec.Settled buf o) :
    Session.Accounted
      { dec := o.dec
        taken := s.taken + (o.buf.srcPos - buf.srcPos)
        given := s.given + (o.buf.dstPos - buf.dstPos)
        refused := s.refused || o.refused
        errored := s.errored || o.status.isError } := by
  have hadd (a : UInt64) (n : ℕ) :
      (a + UInt64.ofNat n).toNat = (a.toNat + n) % wordSize := by
    simp [UInt64.toNat_add, UInt64.toNat_ofNat', wordSize]
  have hexact (c : UInt64) (status : Status) (hc : s.dec.opts.ceiling = some (c, status)) :
      o.dec.totalOut.toNat = s.given + (o.buf.dstPos - buf.dstPos) ∧
        o.dec.totalOut.toNat ≤ c.toNat := by
    have hle := (DecoderOpts.admits_iff _ _).mp h.admitted c status hc
    have hall := s.dec.allowance_le_ceiling hc hle buf.availOut
    have hprod := ho.produced_le
    have hlt := c.toNat_lt
    have hgiven := h.exact (by simp [hc])
    rw [ho.totalOut, hadd, Nat.mod_eq_of_lt (by simp only [wordSize]; omega)]
    omega
  refine ⟨?_, ?_, ?_, ?_⟩
  · simp only [ho.totalIn, hadd, h.totalIn, Nat.mod_add_mod]
  · simp only [ho.totalOut, hadd, h.totalOut, Nat.mod_add_mod]
  · rw [DecoderOpts.admits_iff]
    simp only [ho.opts]
    exact fun c status hc => (hexact c status hc).2
  · simp only [ho.opts]
    intro hc
    obtain ⟨⟨c, status⟩, hc⟩ := Option.isSome_iff_exists.mp hc
    exact (hexact c status hc).1

theorem Session.Accounted.next (hv : v.Honest) {s : Session v} (h : s.Accounted)
    (op : DecoderOp) : (s.next op).Accounted := by
  cases op with
  | process buf mode =>
    rcases decoderCall_cases s.dec buf mode with ⟨hd, hb, _⟩ | ⟨hbuf, _, _, hcall⟩
    · obtain ⟨h1, h2, h3, h4⟩ := h
      refine ⟨?_, ?_, ?_, ?_⟩ <;> simp only [Session.next, hd, hb, Nat.sub_self, Nat.add_zero] <;>
        assumption
    · obtain ⟨hin, hout⟩ := checkBuffer_ok hbuf
      have hadv := hv s.dec.state (s.dec.shown buf) mode (by simpa using hin)
        (by rw [s.dec.shown_dstPos, s.dec.shown_dstSize buf hout]; omega)
      have hset := s.dec.settled buf hbuf hadv
      simp only [Session.next, hcall]
      exact h.settled hset
  | reset opts =>
    simp only [Session.next]
    rcases decoderReset_cases s.dec opts with ⟨hok, _, hin, hout⟩ | ⟨hne, state, hd⟩
    · split
      · next d heq =>
        rw [heq] at hin hout
        exact Session.accounted_start hin hout
      · next d hne heq =>
        rw [heq] at hok
        exact absurd hok (by simpa using hne)
    · split
      · next d heq =>
        rw [heq] at hne
        exact absurd rfl hne
      · next d _ heq =>
        rw [heq] at hd
        obtain ⟨h1, h2, h3, h4⟩ := h
        simp only at hd
        subst hd
        exact ⟨h1, h2, h3, h4⟩

theorem decoderProcess_fields (hv : v.Honest) (d : Decoder v) (buf : Buffer) (mode : Flush) :
    Buffer.SameFields buf (decoderProcess d buf mode).2.2 := by
  unfold decoderProcess
  dsimp only
  rcases decoderCall_cases d buf mode with ⟨_, hb, _⟩ | ⟨hbuf, _, _, hcall⟩
  · rw [hb]
    exact .refl buf
  · obtain ⟨hin, hout⟩ := checkBuffer_ok hbuf
    rw [hcall]
    exact (d.settled buf hbuf (hv d.state (d.shown buf) mode (by simpa using hin)
      (by rw [d.shown_dstPos, d.shown_dstSize buf hout]; omega))).fields

/-- Output-ceiling safety of every session: the counters are the sums of the cursor
advances in the width they have, neither ceiling is passed, and every call returns the
caller's fields as they were. -/
theorem outputCeiling_safe (hv : v.Honest) {lookup : CodecId → Option CodecVtable}
    {opts : DecoderOpts} {d : Decoder v} (hnew : decoderNew lookup opts = .ok ⟨v, d⟩)
    {s : Session v} (hs : Session.Reached d s) :
    (s.dec.totalIn.toNat = s.taken % wordSize ∧ s.dec.totalOut.toNat = s.given % wordSize ∧
      (s.dec.opts.ceiling.isSome → s.dec.totalOut.toNat = s.given)) ∧
    (s.dec.opts.maxOutput ≠ 0 → s.dec.totalOut ≤ s.dec.opts.maxOutput) ∧
    (s.dec.opts.hasExpected → s.dec.totalOut ≤ s.dec.opts.expectedSize) ∧
    ∀ buf mode, Buffer.SameFields buf (decoderProcess s.dec buf mode).2.2 := by
  obtain ⟨_, hin, hout⟩ := decoderNew_fresh hnew
  have h : s.Accounted := hs.invariant Session.Accounted (Session.accounted_start hin hout)
    (fun _ op h _ => h.next hv op)
  exact ⟨⟨h.totalIn, h.totalOut, h.exact⟩, h.admitted.1, h.admitted.2,
    decoderProcess_fields hv s.dec⟩

/-- Four calls over `2 ^ 62` bytes each take the 64-bit input counter back to 0. -/
theorem counters_wrap :
    ¬ ∀ (v : CodecVtable) (_ : v.Honest) (lookup : CodecId → Option CodecVtable)
      (opts : DecoderOpts) (d : Decoder v) (_ : decoderNew lookup opts = .ok ⟨v, d⟩)
      (s : Session v) (_ : Session.Reached d s),
      s.dec.totalOut.toNat = s.given ∧ s.dec.totalIn.toNat = s.taken := by
  intro hall
  have hcalls (n : ℕ) : ∃ s, Session.Reached identityDecoder s ∧ s.dec.finished = false ∧
      s.dec.opts = identityDecoder.opts ∧ s.taken = n * 2 ^ 62 := by
    induction n with
    | zero => exact ⟨_, .new, rfl, rfl, by simp [Session.start]⟩
    | succ n ih =>
      obtain ⟨s, hs, hfin, hopts, htaken⟩ := ih
      obtain ⟨bytes, hlen⟩ : ∃ bytes : List UInt8, bytes.length = 2 ^ 62 :=
        ⟨List.replicate (2 ^ 62) 0, List.length_replicate ..⟩
      obtain ⟨hfin', hpos⟩ := identity_run_call hfin (by rw [hopts]; rfl) bytes
      refine ⟨_, hs.call (.process (.ofParts bytes bytes.length) .run) trivial, hfin', ?_, ?_⟩
      · simp only [Session.next]
        rw [decoderCall_opts, hopts]
      · have hzero : (Buffer.ofParts bytes bytes.length).srcPos = 0 := rfl
        simp only [Session.next, hpos, htaken, hzero]
        omega
  obtain ⟨s, hs, _, _, htaken⟩ := hcalls 4
  have h := hall _ identityCodec_honest _ _ _ identityDecoder_new s hs
  have hlt := s.dec.totalIn.toNat_lt
  omega

/-- The identity decoder under a ceiling of 4 bytes. -/
theorem outputCeiling_safe_identity :
    let s := (Session.start { identityDecoder with
      opts := { identityDecoder.opts with maxOutput := 4 } }).next
        (.process (.ofParts [1, 2, 3, 4, 5, 6] 8) .run)
    s.given = 4 ∧ s.dec.totalOut ≤ s.dec.opts.maxOutput :=
  ⟨by decide, (outputCeiling_safe identityCodec_honest
    (show decoderNew identityOnly { identityDecoder.opts with maxOutput := 4 } = _ from rfl)
    (.call .new (.process (.ofParts [1, 2, 3, 4, 5, 6] 8) .run) trivial)).2.1 (by decide)⟩

end Zukomp
