import Zukomp.Core.Stream

/-! # Decoder sessions

A session follows one decoder handle through any calls of `zu_decoder_process` and
`zu_decoder_reset`, and records for the stream in progress how far the two cursors
were advanced and whether a limit has refused a call.
-/

namespace Zukomp

variable {v : CodecVtable}

/-! ## What one call does -/

theorem checkBuffer_ok {buf : Buffer} (h : checkBuffer buf = .ok) :
    buf.srcPos ≤ buf.srcSize ∧ buf.dstPos ≤ buf.dstSize := by
  unfold checkBuffer at h
  split at h
  · cases h
  · omega

theorem checkBuffer_isError {buf : Buffer} (h : checkBuffer buf ≠ .ok) :
    (checkBuffer buf).isError = true := by
  unfold checkBuffer at h ⊢
  split_ifs at h ⊢ <;> first | rfl | exact absurd rfl h

theorem Buffer.unread_length_of_ok {buf : Buffer} (h : checkBuffer buf = .ok) :
    buf.unread.length = buf.srcSize - buf.srcPos := by
  cases hsrc : buf.src with
  | some bytes => exact Buffer.unread_length (by simp [hsrc])
  | none =>
    unfold checkBuffer at h
    split_ifs at h with h1 h2
    have : buf.srcSize = 0 := by simpa [hsrc] using h2
    simp [Buffer.unread, hsrc, this]

theorem Buffer.advance_spent {buf : Buffer} (hb : checkBuffer buf = .ok) {w : Window}
    (h : w.input = []) : (buf.advance w).srcPos = buf.srcSize := by
  have hlen := Buffer.unread_length_of_ok hb
  obtain ⟨hle, -⟩ := checkBuffer_ok hb
  change buf.srcPos + (buf.unread.length - w.input.length) = buf.srcSize
  rw [h, List.length_nil]
  omega

namespace Decoder

variable (d : Decoder v) (buf : Buffer)

theorem remaining_toNat (ceiling : UInt64) :
    (d.remaining ceiling).toNat = ceiling.toNat - d.totalOut.toNat := by
  unfold remaining
  split_ifs with h
  · rw [UInt64.lt_iff_toNat_lt] at h
    exact UInt64.toNat_sub_of_le _ _ (UInt64.le_iff_toNat_le.mpr h.le)
  · rw [UInt64.lt_iff_toNat_lt] at h
    simp only [UInt64.toNat_zero]
    omega

theorem allowance_none (hc : d.opts.ceiling = none) (room : ℕ) :
    d.allowance room = (room, false) := by simp [allowance, hc]

theorem allowance_some {ceiling : UInt64} {status : Status}
    (hc : d.opts.ceiling = some (ceiling, status)) (room : ℕ) :
    d.allowance room = (min (ceiling.toNat - d.totalOut.toNat) room,
      decide (ceiling.toNat - d.totalOut.toNat < room)) := by
  simp only [allowance, hc, remaining_toNat]
  split_ifs with h
  · simp [h, h.le]
  · simp only [h, decide_false, Prod.mk.injEq, and_true]
    omega

theorem allowance_le (room : ℕ) : (d.allowance room).1 ≤ room := by
  cases hc : d.opts.ceiling with
  | none => simp [d.allowance_none hc]
  | some c => simp [d.allowance_some hc]

theorem allowance_eq_room {room : ℕ} (h : (d.allowance room).2 = false) :
    (d.allowance room).1 = room := by
  cases hc : d.opts.ceiling with
  | none => simp [d.allowance_none hc]
  | some c => simpa [d.allowance_some hc] using h

theorem allowance_le_ceiling {ceiling : UInt64} {status : Status}
    (hc : d.opts.ceiling = some (ceiling, status)) (hle : d.totalOut.toNat ≤ ceiling.toNat)
    (room : ℕ) : d.totalOut.toNat + (d.allowance room).1 ≤ ceiling.toNat := by
  rw [d.allowance_some hc]
  simp only
  omega

@[simp] theorem shown_src : (d.shown buf).src = buf.src := by unfold shown; split_ifs <;> rfl
@[simp] theorem shown_srcSize : (d.shown buf).srcSize = buf.srcSize := by
  unfold shown; split_ifs <;> rfl
@[simp] theorem shown_srcPos : (d.shown buf).srcPos = buf.srcPos := by
  unfold shown; split_ifs <;> rfl
@[simp] theorem shown_dst : (d.shown buf).dst = buf.dst := by unfold shown; split_ifs <;> rfl
@[simp] theorem shown_dstPos : (d.shown buf).dstPos = buf.dstPos := by
  unfold shown; split_ifs <;> rfl
@[simp] theorem shown_stored : (d.shown buf).stored = buf.stored := by
  unfold shown; split_ifs <;> rfl
@[simp] theorem shown_unread : (d.shown buf).unread = buf.unread := by simp [Buffer.unread]

@[simp] theorem shown_availOut :
    (d.shown buf).availOut = (d.allowance buf.availOut).1 := by
  unfold shown
  split_ifs with h
  · simp [Buffer.availOut]
  · simp only [Bool.not_eq_true] at h
    exact (d.allowance_eq_room h).symm

theorem shown_dstSize_le (h : buf.dstPos ≤ buf.dstSize) :
    (d.shown buf).dstSize ≤ buf.dstSize := by
  unfold shown
  split_ifs
  · have := d.allowance_le buf.availOut
    simp only [Buffer.availOut] at this ⊢
    omega
  · exact le_rfl

theorem shown_dstSize (h : buf.dstPos ≤ buf.dstSize) :
    (d.shown buf).dstSize = buf.dstPos + (d.allowance buf.availOut).1 := by
  unfold shown
  split_ifs with hc
  · rfl
  · simp only [Bool.not_eq_true] at hc
    rw [d.allowance_eq_room hc, Buffer.availOut]
    omega

/-- What settling an honest codec's call leaves: the caller's fields are restored, the
cursors have moved within the allowance, and the counters have moved with them. -/
structure Settled (o : Outcome v) : Prop where
  fields : Buffer.SameFields buf o.buf
  src_le : buf.srcPos ≤ o.buf.srcPos
  dst_le : buf.dstPos ≤ o.buf.dstPos
  src_le_size : o.buf.srcPos ≤ buf.srcSize
  produced_le : o.buf.dstPos - buf.dstPos ≤ (d.allowance buf.availOut).1
  opts : o.dec.opts = d.opts
  totalIn : o.dec.totalIn = d.totalIn + UInt64.ofNat (o.buf.srcPos - buf.srcPos)
  totalOut : o.dec.totalOut = d.totalOut + UInt64.ofNat (o.buf.dstPos - buf.dstPos)

theorem settled {r : Status × v.Dec × Buffer} (hb : checkBuffer buf = .ok)
    (hr : Buffer.Advances (d.shown buf) r.2.2) : d.Settled buf (d.settle buf r) := by
  obtain ⟨st, s, after⟩ := r
  obtain ⟨⟨hsrc, hsize, hdst, hdsize⟩, h1, h2, h3, h4⟩ := hr
  obtain ⟨_, hout⟩ := checkBuffer_ok hb
  simp only [shown_src, shown_srcSize, shown_dst, shown_srcPos, shown_dstPos] at *
  rw [d.shown_dstSize buf hout] at hdsize h4
  have hfields : Buffer.SameFields buf (d.settle buf (st, s, after)).buf := by
    unfold settle
    dsimp only
    split_ifs with hc
    · exact ⟨hsrc, hsize, hdst, rfl⟩
    · refine ⟨hsrc, hsize, hdst, ?_⟩
      simp only [Bool.not_eq_true] at hc
      rw [hdsize, d.allowance_eq_room hc, Buffer.availOut]
      omega
  have hpos : (d.settle buf (st, s, after)).buf.srcPos = after.srcPos ∧
      (d.settle buf (st, s, after)).buf.dstPos = after.dstPos := by
    unfold settle
    dsimp only
    split_ifs <;> exact ⟨rfl, rfl⟩
  refine ⟨hfields, ?_, ?_, ?_, ?_, rfl, ?_, ?_⟩
  · rw [hpos.1]; exact h1
  · rw [hpos.2]; exact h3
  · rw [hpos.1]; exact h2
  · rw [hpos.2]; omega
  · rw [hpos.1]; simp [settle, cursorSub, h1]
  · rw [hpos.2]; simp [settle, cursorSub, h3]

end Decoder

/-- A decoder that only advances the two cursors, within the window it is shown. -/
def CodecVtable.Honest (v : CodecVtable) : Prop :=
  ∀ s buf mode, buf.srcPos ≤ buf.srcSize → buf.dstPos ≤ buf.dstSize →
    Buffer.Advances buf (v.decoderProcess s buf mode).2.2

/-- A call either leaves handle and buffer alone or is the codec's call, settled. -/
theorem decoderCall_cases (d : Decoder v) (buf : Buffer) (mode : Flush) :
    ((decoderCall d buf mode).dec = d ∧ (decoderCall d buf mode).buf = buf ∧
      (decoderCall d buf mode).refused = false ∧
      ((decoderCall d buf mode).status = .streamEnd → d.finished = true)) ∨
    (checkBuffer buf = .ok ∧ d.finished = false ∧ (mode = .flush → v.can canFlush) ∧
      decoderCall d buf mode =
        d.settle buf (v.decoderProcess d.state (d.shown buf) mode)) := by
  unfold decoderCall
  split_ifs with hbuf hfin htrail hflush
  · refine .inl ⟨rfl, rfl, rfl, ?_⟩
    unfold checkBuffer
    split_ifs <;> simp
  · exact .inl ⟨rfl, rfl, rfl, by simp⟩
  · exact .inl ⟨rfl, rfl, rfl, fun _ => hfin⟩
  · exact .inl ⟨rfl, rfl, rfl, by simp⟩
  · refine .inr ⟨by simpa using hbuf, by simpa using hfin, fun hm => ?_, rfl⟩
    simpa [hm] using hflush

theorem decoderCall_codec {d : Decoder v} {buf : Buffer} {mode : Flush}
    (hbuf : checkBuffer buf = .ok) (hfin : d.finished = false)
    (hmode : mode = .flush → v.can canFlush) :
    decoderCall d buf mode =
      d.settle buf (v.decoderProcess d.state (d.shown buf) mode) := by
  unfold decoderCall
  rw [if_neg (by simp [hbuf]), if_neg (by simp [hfin]), if_neg (by tauto)]

@[simp] theorem checkBuffer_ofParts (bytes : List UInt8) (room : ℕ) :
    checkBuffer (.ofParts bytes room) = .ok := by simp [checkBuffer, Buffer.ofParts]

theorem decoderCall_opts (d : Decoder v) (buf : Buffer) (mode : Flush) :
    (decoderCall d buf mode).dec.opts = d.opts := by
  rcases decoderCall_cases d buf mode with ⟨h, _⟩ | ⟨_, _, _, h⟩
  · rw [h]
  · rw [h]; rfl

/-! ## Sessions -/

inductive DecoderOp where
  | process (buf : Buffer) (mode : Flush)
  | reset (opts : Option DecoderOpts)

/-- A handle, the bytes its stream has taken and given, whether a limit has refused a
call of the stream, and whether any call of it has returned an error. -/
structure Session (v : CodecVtable) where
  dec : Decoder v
  taken : ℕ
  given : ℕ
  refused : Bool
  errored : Bool

namespace Session

def start (d : Decoder v) : Session v := ⟨d, 0, 0, false, false⟩

/-- A successful reset starts the record afresh; a failed one keeps it. -/
def next (s : Session v) : DecoderOp → Session v
  | .process buf mode =>
    let o := decoderCall s.dec buf mode
    { dec := o.dec
      taken := s.taken + (o.buf.srcPos - buf.srcPos)
      given := s.given + (o.buf.dstPos - buf.dstPos)
      refused := s.refused || o.refused
      errored := s.errored || o.status.isError }
  | .reset opts => match decoderReset s.dec opts with
    | (.ok, d) => start d
    | (_, d) => { s with dec := d }

/-- The sessions that calls meeting `K` lead to from a new handle. -/
inductive Run (K : Session v → DecoderOp → Prop) (d : Decoder v) : Session v → Prop
  | new : Run K d (start d)
  | call {s : Session v} (h : Run K d s) (op : DecoderOp) (hop : K s op) : Run K d (s.next op)

abbrev Reached (d : Decoder v) : Session v → Prop := Run (fun _ _ => True) d

/-- An invariant of a fresh stream that every call keeps holds in every session. -/
theorem Run.invariant {K : Session v → DecoderOp → Prop} (Inv : Session v → Prop)
    {d : Decoder v} (hnew : Inv (start d)) (hcall : ∀ s op, Inv s → K s op → Inv (s.next op))
    {s : Session v} (h : Run K d s) : Inv s := by
  induction h with
  | new => exact hnew
  | call _ op hop ih => exact hcall _ op ih hop

/-- The sessions that calls meeting `K` lead to from `s`, no reset among them succeeding. -/
inductive Later (K : Session v → DecoderOp → Prop) (s : Session v) : Session v → Prop
  | here : Later K s s
  | process {s' : Session v} (h : Later K s s') (buf : Buffer) (mode : Flush)
      (hop : K s' (.process buf mode)) : Later K s (s'.next (.process buf mode))
  | reset {s' : Session v} (h : Later K s s') (opts : Option DecoderOpts)
      (hop : K s' (.reset opts)) (failed : (decoderReset s'.dec opts).1 ≠ .ok) :
      Later K s (s'.next (.reset opts))

theorem next_reset_dec (s : Session v) (opts : Option DecoderOpts) :
    (s.next (.reset opts)).dec = (decoderReset s.dec opts).2 := by
  unfold next
  split
  · next heq => cases heq
  · next heq =>
    cases heq
    split
    · next hr => rw [hr]; rfl
    · next hr => rw [hr]

end Session

theorem decoderNew_fresh {lookup : CodecId → Option CodecVtable} {opts : DecoderOpts}
    {d : Decoder v} (h : decoderNew lookup opts = .ok ⟨v, d⟩) :
    d.finished = false ∧ d.totalIn = 0 ∧ d.totalOut = 0 := by
  unfold decoderNew at h
  split at h
  · cases h
  · split at h
    · cases h
    · split at h
      · cases h
      · cases h
        exact ⟨rfl, rfl, rfl⟩

theorem resolve_found {lookup : CodecId → Option CodecVtable} {codec : CodecId}
    {direction : UInt32} {v : CodecVtable} (h : resolve lookup codec direction = .ok v) :
    lookup codec = some v := by
  unfold resolve at h
  cases hlookup : lookup codec with
  | none =>
    rw [hlookup] at h
    cases h
  | some v' =>
    rw [hlookup] at h
    dsimp only at h
    split_ifs at h
    cases h
    rfl

theorem decoderNew_ok {lookup : CodecId → Option CodecVtable} {opts : DecoderOpts}
    {d : Decoder v} (h : decoderNew lookup opts = .ok ⟨v, d⟩) :
    d.opts = copyDecoderOpts opts ∧ v.decoderNew d.opts = .ok d.state := by
  unfold decoderNew at h
  split at h
  · cases h
  · split at h
    · cases h
    · split at h
      · cases h
      · next hstate =>
        cases h
        exact ⟨rfl, hstate⟩

/-- So is a handle that a reset succeeded on; a failed reset changes only what the
codec's own reset changed. -/
theorem decoderReset_cases (d : Decoder v) (opts : Option DecoderOpts) :
    ((decoderReset d opts).1 = .ok ∧ (decoderReset d opts).2.finished = false ∧
      (decoderReset d opts).2.totalIn = 0 ∧ (decoderReset d opts).2.totalOut = 0) ∨
    ((decoderReset d opts).1 ≠ .ok ∧
      ∃ s, (decoderReset d opts).2 = { d with state := s }) := by
  unfold decoderReset
  dsimp only
  split_ifs
  · exact .inr ⟨by simp, d.state, rfl⟩
  · exact .inr ⟨by simp, d.state, rfl⟩
  · split
    · exact .inr ⟨by simp, d.state, rfl⟩
    · split
      · exact .inl ⟨rfl, rfl, rfl, rfl⟩
      · next hne _ => exact .inr ⟨by rename_i h; intro he; simp_all, _, rfl⟩

/-- A property of the codec's state that its calls and its resets keep holds in every session. -/
theorem Session.Run.state_inv {K : Session v → DecoderOp → Prop} {P : v.Dec → Prop}
    (hprocess : ∀ {s} buf mode, P s → P (v.decoderProcess s buf mode).2.1)
    (hreset : ∀ {reset s} o, v.decoderReset = some reset → P s → P (reset s o).2) {d : Decoder v}
    (hd : P d.state) {s : Session v} (h : Session.Run K d s) : P s.dec.state := by
  refine Session.Run.invariant (fun s => P s.dec.state) hd (fun s op hs _ => ?_) h
  cases op with
  | process buf mode =>
    have hdec : (s.next (.process buf mode)).dec = (decoderCall s.dec buf mode).dec := rfl
    rw [hdec]
    rcases decoderCall_cases s.dec buf mode with ⟨hsame, -⟩ | ⟨-, -, -, hcall⟩
    · rw [hsame]
      exact hs
    · rw [hcall]
      exact hprocess (s.dec.shown buf) mode hs
  | reset o =>
    rw [Session.next_reset_dec]
    unfold decoderReset
    dsimp only
    split_ifs
    · exact hs
    · exact hs
    · split
      · exact hs
      · next reset hv =>
        have hkept := hreset (copyDecoderOpts (o.getD s.dec.opts)) hv hs
        split
        · next heq => rwa [heq] at hkept
        · next heq => rwa [heq] at hkept

end Zukomp
