import Zukomp.Core.Whole

/-! # Whole-buffer decoding under the ceilings

The loop ends a valid stream with all of its text, or at the ceiling with as much of it as the ceiling
admits. One that is exactly as long as the ceiling passes, unless its codec stalls between two slices.
-/

namespace Zukomp

open Library

variable {v : CodecVtable} {c : Coding UInt8}

namespace StreamDecoder

/-- The ends of a whole-buffer run that the contract allows. -/
inductive WholeEnd (k : StreamDecoder v c) (r : RunOpts) (opts : DecoderOpts) :
    Status × OutBuf → Prop
  | ended {out : OutBuf} (text : out.used = c.text)
      (size : opts.hasExpected → opts.expectedSize.toNat = c.text.length)
      (within : ∀ C status, opts.ceiling = some (C, status) → c.text.length ≤ C.toNat) :
      WholeEnd k r opts (.streamEnd, out)
  | missized {out : OutBuf} (text : out.used = c.text) (expected : opts.hasExpected)
      (size : opts.expectedSize.toNat ≠ c.text.length) : WholeEnd k r opts (.errInvalidData, out)
  | capped {C : UInt64} {status : Status} {out : OutBuf} (ceiling : opts.ceiling = some (C, status))
      (text : out.used = c.text.take C.toNat)
      (owing : C.toNat < c.text.length ∨
        C.toNat = c.text.length ∧ r.inChunk < c.code.length ∧ ∃ p, k.Stall p) :
      WholeEnd k r opts (status, out)

/-- A run that has read `p` bytes of the stream. -/
structure WholeWithin (k : StreamDecoder v c) (r : RunOpts) (opts : DecoderOpts)
    (x : Whole (Decoder v)) (p : ℕ) : Prop where
  standing : ∃ last, k.Standing x.handle last p x.out.used.length ∧ (last = true → x.later = [])
  opts_eq : x.handle.opts = opts
  rest : x.slice ++ x.later = c.code.drop p
  writes : c.Writes 0 x.out.used
  slice_le : x.slice.length ≤ r.inChunk
  more : x.slice = [] ∨ x.later = [] ∨ r.inChunk < c.code.length

variable {k : StreamDecoder v c} {r : RunOpts} {opts : DecoderOpts} {x : Whole (Decoder v)} {p : ℕ}

/-- A new slice is the next piece of the stream. It is empty at the end only, and the last unless
the stream is longer than a slice. -/
theorem WholeWithin.refill (h : k.WholeWithin r opts x p) (hin : 0 < r.inChunk) :
    k.WholeWithin r opts (x.refill r) p ∧ ((x.refill r).slice = [] → (x.refill r).later = []) ∧
      ((x.refill r).later ≠ [] → r.inChunk < c.code.length) ∧
      wholeMeasure c (x.refill r) = wholeMeasure c x := by
  unfold Whole.refill
  by_cases hslice : x.slice = []
  · obtain ⟨last, hstand, hlast⟩ := h.standing
    have hrest := h.rest
    rw [hslice, List.nil_append] at hrest
    have hlong : x.later.drop r.inChunk ≠ [] → r.inChunk < c.code.length := fun hne => by
      have hlen := congrArg List.length hrest
      have hlt := List.length_pos_of_ne_nil hne
      rw [List.length_drop] at hlen hlt
      omega
    rw [if_pos hslice]
    refine ⟨⟨⟨last, hstand, fun hl => by simp [hlast hl]⟩, h.opts_eq, ?_, h.writes,
      List.length_take_le .., ?_⟩, fun hnil => ?_, hlong, ?_⟩
    · change x.later.take r.inChunk ++ x.later.drop r.inChunk = _
      rwa [List.take_append_drop]
    · by_cases hnil : x.later.drop r.inChunk = []
      · exact .inr (.inl hnil)
      · exact .inr (.inr (hlong hnil))
    · rcases List.take_eq_nil_iff.mp hnil with hzero | hlater
      · omega
      · simp [hlater]
    · simp only [wholeMeasure, hslice, List.length_take, List.length_drop, List.length_nil]
      omega
  · rw [if_neg hslice]
    exact ⟨h, fun hnil => absurd hnil hslice,
      fun hne => (h.more.resolve_left hslice).resolve_left hne, rfl⟩

/-- A call that does not fail moves the run on, or ends it. -/
theorem wholeTurn_within (h : k.WholeWithin r opts x p) (hin : 0 < r.inChunk)
    (hout : 0 < r.outChunk) (hflush : r.flushEvery = 0)
    (hfits : c.text.length + r.outChunk < wordSize) (hf : ¬ k.FailsWhole r x) :
    Turn (fun x' => (∃ p', k.WholeWithin r opts x' p') ∧ wholeMeasure c x' < wholeMeasure c x)
      (k.WholeEnd r opts) (wholeTurn decoderProcess r x) := by
  obtain ⟨hrefill, hnil, hlong, hmeasure⟩ := h.refill hin
  rw [← hmeasure]
  unfold FailsWhole at hf
  have hhandle : (x.refill r).handle = x.handle := Whole.refill_handle r x
  have hsink : (x.refill r).out = x.out := Whole.refill_out r x
  have hbound := h.writes.length_le
  simp only [Nat.sub_zero] at hbound
  obtain ⟨size, hreserve⟩ := reserve_ok (show x.out.used.length + r.outChunk < wordSize by omega)
  rw [wholeTurn_ok _ hreserve, ← hhandle]
  rw [← hhandle] at hf
  rw [← hsink]
  generalize x.refill r = y at *
  obtain ⟨last, hstand, hlast⟩ := hrefill.standing
  have hfinish : y.mode r = .finish ↔ y.later = [] := by
    simp only [Whole.mode, hflush]
    split_ifs <;> simp_all
  have hmode : y.mode r ≠ .flush := by
    simp only [Whole.mode, hflush]
    split_ifs <;> simp_all
  have hshows : c.Shows p (Buffer.ofParts y.slice r.outChunk).unread (y.mode r = .finish) := by
    rw [Buffer.unread_ofParts]
    refine ⟨⟨_, hrefill.rest⟩, fun hm => ?_⟩
    have hrest := hrefill.rest
    rwa [hfinish.mp hm, List.append_nil] at hrest
  obtain ⟨u, o, hm, hopts, hceil, hj⟩ :=
    process_judged (.ofParts y.slice r.outChunk) (y.mode r) hstand (checkBuffer_ofParts ..)
      (fun hl => hfinish.mpr (hlast hl)) hmode hshows hf
  have hread : u ≤ y.slice.length := by simpa using hm.read_le
  have hunread : (decoderProcess y.handle (.ofParts y.slice r.outChunk) (y.mode r)).2.2.unread =
      y.slice.drop u := by simpa using hm.unread
  have hstored : (decoderProcess y.handle (.ofParts y.slice r.outChunk) (y.mode r)).2.2.stored =
      o := hm.stored
  have hwrites : c.Writes 0 (y.out.used ++ o) := hrefill.writes.append (by simpa using hm.writes)
  have hlen : (y.out.used ++ o).length = y.out.used.length + o.length := List.length_append
  have hrest : y.slice.drop u ++ y.later = c.code.drop (p + u) := by
    rw [← List.drop_drop, ← hrefill.rest, List.drop_append_of_le_length hread]
  have hslice : (y.slice.drop u).length ≤ r.inChunk := by
    rw [List.length_drop]
    have := hrefill.slice_le
    omega
  have hle := hwrites.length_le
  rw [hlen, Nat.sub_zero] at hle
  have hopts' := hopts.trans hrefill.opts_eq
  rw [hrefill.opts_eq] at hceil
  have hmore : y.slice.drop u = [] ∨ y.later = [] ∨ r.inChunk < c.code.length := by
    by_cases hl : y.later = []
    · exact .inr (.inl hl)
    · exact .inr (.inr (hlong hl))
  unfold Whole.judge
  dsimp only
  rw [hunread, hstored]
  generalize (decoderProcess y.handle (.ofParts y.slice r.outChunk) (y.mode r)).1 = st at hj ⊢
  generalize (decoderProcess y.handle (.ofParts y.slice r.outChunk) (y.mode r)).2.1 = d' at *
  have hdone (written : y.out.used.length + o.length = c.text.length) : y.out.used ++ o = c.text :=
    hwrites.eq_text (by rw [hlen]; exact written)
  cases hj with
  | ended read written size =>
    refine .ended (hdone written) (hrefill.opts_eq ▸ size) fun C status hc => ?_
    have := hceil C status hc
    omega
  | missized read written expected size =>
    exact .missized (hdone written) (hrefill.opts_eq ▸ expected) (hrefill.opts_eq ▸ size)
  | @capped C status ceiling spent owing =>
    have hend : k.WholeEnd r opts (st, Whole.finish r { y with
        handle := d', slice := y.slice.drop u, calls := y.calls + 1
        out := { y.out with size := size, used := y.out.used ++ o } }
        { y.out with size := size, used := y.out.used ++ o }) := by
      refine .capped (hrefill.opts_eq ▸ ceiling) ?_ ?_
      · have htake := hwrites.eq_take
        rw [List.drop_zero, hlen, spent] at htake
        exact htake
      · rcases owing with hlt | ⟨-, hrun, hstall⟩
        · exact .inl (by omega)
        · rcases Nat.lt_or_ge C.toNat c.text.length with hlt | hge
          · exact .inl hlt
          · exact .inr ⟨by omega, hlong fun h => hrun (hfinish.mpr h), _, hstall⟩
    rcases DecoderOpts.ceiling_status ceiling with rfl | rfl <;> exact hend
  | hungry standing running empty stall =>
    have hlater : y.later ≠ [] := fun h => running (hfinish.mpr h)
    have hne : y.slice ≠ [] := fun h => hlater (hnil h)
    simp only [Buffer.unread_ofParts] at empty
    rw [if_neg (by simp), if_neg (by simp), if_neg (fun h => hlater h.2.1)]
    have hpos := List.length_pos_iff.mpr hne
    have hlive := standing (.inr (moved_of_read (by rw [List.drop_eq_nil_iff] at empty; omega)))
    refine ⟨⟨p + u, ⟨_, hlen ▸ hlive, by simp [running]⟩, hopts', hrest, hwrites, hslice, hmore⟩, ?_⟩
    simp only [wholeMeasure, empty, List.length_nil, hlen]
    omega
  | full standing noRoom owing =>
    simp only [Buffer.availOut_ofParts] at noRoom
    rw [if_neg (by simp), if_neg (by simp), if_neg (by simp)]
    have hlive := standing (.inr (moved_of_written (by omega)))
    refine ⟨⟨p + u, ⟨_, hlen ▸ hlive, by simp [hfinish]⟩, hopts', hrest, hwrites, hslice, hmore⟩, ?_⟩
    simp only [wholeMeasure, List.length_drop, hlen]
    omega

/-- A whole-buffer run none of whose calls fails ends with the text, or at its ceiling. -/
theorem whole_within {d : Decoder v} (h : k.Standing d false 0 0) (hsrc : r.src = c.code)
    (hin : 0 < r.inChunk) (hout : 0 < r.outChunk) (hflush : r.flushEvery = 0)
    (hfits : c.text.length + r.outChunk < wordSize)
    (hf : ∀ x p, k.WholeWithin r d.opts x p → ¬ k.FailsWhole r x) :
    ∃ e, Returns (wholeTurn decoderProcess r) (.start d r .empty) e ∧ k.WholeEnd r d.opts e :=
  returns_of_measure (fun x => ∃ p, k.WholeWithin r d.opts x p) (wholeMeasure c)
    (fun x ⟨p, hx⟩ => wholeTurn_within hx hin hout hflush hfits (hf x p hx))
    ⟨0, ⟨false, h, by simp⟩, rfl, by simpa [Whole.start] using hsrc, .nil, Nat.zero_le _, .inl rfl⟩

end StreamDecoder

end Zukomp
