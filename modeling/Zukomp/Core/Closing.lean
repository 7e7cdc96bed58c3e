import Zukomp.Core.Feeding

/-! # Streams with an end of their own

What a codec owes for bytes that need not be a valid stream to their last: all of the text,
and then an end that depends only on where it is found. Under limits that the text stays
below, the driver adds the expected size and the trailing policy, in that order.
-/

namespace Zukomp

open Library

/-- A stream as a codec goes through it. `waits p` says that a decoder at `p` holds bytes that
it has read past the end, and `Ends` how it may end: whether it waited when the call began,
whether the call is the last of the stream, the bytes read, whether all of the input was, and
the status. -/
structure Course (σ : Type) where
  coding : Coding UInt8
  At : σ → Bool → ℕ → ℕ → Prop
  Stall : ℕ → Prop
  waits : ℕ → Bool
  Ends : Bool → Bool → ℕ → Bool → Status → Prop

namespace Course

variable {σ : Type} (C : Course σ)

/-- The answers of a decoder at `(p, q)` of the course. -/
inductive Answer (fails : Prop) (p q : ℕ) (w : Window) (last : Bool) : Status × σ × Window → Prop
  | closed {st : Status} {s : σ} {w' : Window} {u : ℕ} {o : List UInt8} (moved : w.Moved u o w')
      (writes : C.coding.Writes q o) (written : q + o.length = C.coding.text.length)
      (ends : C.Ends (C.waits p) last (p + u) w'.input.isEmpty st) :
      Answer fails p q w last (st, s, w')
  | hungry {s : σ} {w' : Window} {u : ℕ} {o : List UInt8} (moved : w.Moved u o w')
      (writes : C.coding.Writes q o) (at_ : C.At s last (p + u) (q + o.length))
      (more : last = false) (empty : w'.input = [])
      (stall : C.Stall (p + u) → w'.room ≠ 0 ∧ q + o.length = C.coding.text.length) :
      Answer fails p q w last (.needInput, s, w')
  | full {s : σ} {w' : Window} {u : ℕ} {o : List UInt8} (moved : w.Moved u o w')
      (writes : C.coding.Writes q o) (at_ : C.At s last (p + u) (q + o.length))
      (noRoom : w'.room = 0)
      (owing : q + o.length < C.coding.text.length ∨
        w'.input = [] ∧ last = false ∧ C.Stall (p + u)) :
      Answer fails p q w last (.needOutput, s, w')
  | failed {s : σ} {w' : Window} (fail : fails) : Answer fails p q w last (.errInvalidData, s, w')

/-- What a turn of the loop owes: to move on in the course, or to answer. -/
def Carries (fails : Prop) (p q : ℕ) (w : Window) (last : Bool) :
    σ × Window ⊕ Status × σ × Window → Prop :=
  Turn
    (fun y => ∃ u o, w.Moved u o y.2 ∧ C.coding.Writes q o ∧ C.At y.1 last (p + u) (q + o.length) ∧
      C.waits (p + u) = C.waits p)
    (C.Answer fails p q w last)

variable {C} {fails : Prop} {p q u : ℕ} {w w' : Window} {o : List UInt8} {last : Bool}

theorem Answer.after {r : Status × σ × Window} (hm : w.Moved u o w') (hw : C.coding.Writes q o)
    (hwaits : C.waits (p + u) = C.waits p)
    (h : C.Answer fails (p + u) (q + o.length) w' last r) : C.Answer fails p q w last r := by
  cases h with
  | closed moved writes written ends =>
    refine .closed (hm.trans moved) (hw.append writes) (by rw [List.length_append]; omega) ?_
    rwa [← Nat.add_assoc, ← hwaits]
  | hungry moved writes at_ more empty stall =>
    refine .hungry (hm.trans moved) (hw.append writes) ?_ more empty ?_
    · rwa [List.length_append, ← Nat.add_assoc, ← Nat.add_assoc]
    · rwa [List.length_append, ← Nat.add_assoc, ← Nat.add_assoc]
  | full moved writes at_ noRoom owing =>
    refine .full (hm.trans moved) (hw.append writes) ?_ noRoom ?_
    · rwa [List.length_append, ← Nat.add_assoc, ← Nat.add_assoc]
    · rwa [List.length_append, ← Nat.add_assoc, ← Nat.add_assoc]
  | failed fail => exact .failed fail

theorem Answer.answer (hends : ∀ waits last read empty st, C.Ends waits last read empty st →
      st = .streamEnd ∧ read = C.coding.code.length) {r : Status × σ × Window}
    (h : C.Answer fails p q w last r) :
    Zukomp.Answer C.coding C.At C.Stall fails p q w last r := by
  cases h with
  | closed moved writes written ends =>
    obtain ⟨rfl, hread⟩ := hends _ _ _ _ _ ends
    exact .ended moved writes hread written
  | hungry moved writes at_ more empty stall => exact .hungry moved writes at_ more empty stall
  | full moved writes at_ noRoom owing => exact .full moved writes at_ noRoom owing
  | failed fail => exact .failed fail

end Course

/-- A decoder that keeps to the course, whose first `valid` bytes are a valid stream. It gives
up only within these. -/
structure ClosingDecoder (v : CodecVtable) extends Course v.Dec where
  process : v.Dec → Window → Flush → Status × v.Dec × Window
  lifted : v.decoderProcess = onBuffer process
  Fails : v.Dec → Window → Flush → Prop
  valid : ℕ
  valid_le : valid ≤ coding.code.length
  answers : ∀ {s : v.Dec} {last : Bool} {p q : ℕ} {w : Window} {mode : Flush},
    At s last p q → (last = true → mode = .finish) → mode ≠ .flush →
      coding.Shows p w.input (mode = .finish) →
        toCourse.Answer (Fails s w mode) p q w (mode == .finish) (process s w mode)
  fails : ∀ {s : v.Dec} {last : Bool} {p q : ℕ} {w : Window} {mode : Flush},
    At s last p q → (last = true → mode = .finish) → mode ≠ .flush →
      coding.Shows p w.input (mode = .finish) → Fails s w mode →
        (process s w mode).1 = .errInvalidData ∧
          ∃ u o, w.Moved u o (process s w mode).2.2 ∧ p + u < valid
  bounds : ∀ {s : v.Dec} {last : Bool} {p q : ℕ}, At s last p q →
    p ≤ coding.code.length ∧ q ≤ coding.text.length
  delivered : ∀ {s : v.Dec} {last : Bool} {p q : ℕ}, At s last p q → waits p = true →
    q = coding.text.length ∧ ¬ Stall p
  final : ∀ {waited last empty : Bool} {read : ℕ} {st : Status}, Ends waited last read empty st →
    st ≠ .needInput ∧ st ≠ .needOutput
  ends_valid : ∀ {waited last empty : Bool} {read : ℕ} {st : Status}, Ends waited last read empty st →
    valid ≤ read

/-- No ratio limit, and no ceiling that a text of `D` bytes reaches. -/
structure DecoderOpts.Above (o : DecoderOpts) (D : ℕ) : Prop where
  noRatio : o.maxRatio = 0
  above : ∀ C status, o.ceiling = some (C, status) → D < C.toNat

/-- What the driver makes of a codec's last status, with `D` bytes delivered. -/
def DecoderOpts.closing (o : DecoderOpts) (D : ℕ) (unread : Bool) (st : Status) : Status :=
  if st = .streamEnd then
    if o.hasExpected ∧ o.expectedSize.toNat ≠ D then .errInvalidData
    else if unread ∧ o.rejectTrailing then .errTrailing
    else .streamEnd
  else st

theorem DecoderOpts.closing_streamEnd (o : DecoderOpts) (D : ℕ) (unread : Bool) :
    o.closing D unread .streamEnd =
      if o.hasExpected ∧ o.expectedSize.toNat ≠ D then .errInvalidData
      else if unread ∧ o.rejectTrailing then .errTrailing
      else .streamEnd := if_pos rfl

theorem DecoderOpts.closing_of_ne {o : DecoderOpts} {D : ℕ} {unread : Bool} {st : Status}
    (h : st ≠ .streamEnd) : o.closing D unread st = st := if_neg h

variable {v : CodecVtable}

theorem DecoderOpts.ceiling_isSome (o : DecoderOpts) (h : o.hasExpected = true) :
    o.ceiling.isSome = true := by
  by_contra hnone
  rw [DecoderOpts.hasExpected_of_none (by simpa using hnone)] at h
  cases h

/-- Above its text a stream is judged only at its end. -/
theorem Decoder.settle_above {d : Decoder v} {buf : Buffer} (hb : checkBuffer buf = .ok) {D q : ℕ}
    (habove : d.opts.Above D)
    (hcount : ∀ C status, d.opts.ceiling = some (C, status) → d.totalOut.toNat = q) (st : Status)
    (s : v.Dec) {w' : Window} {u : ℕ} {o : List UInt8}
    (hm : (StreamDecoder.shownWindow d buf).Moved u o w') (hq : q + o.length ≤ D) :
    let r := d.settle buf (st, s, (d.shown buf).advance w')
    (∀ C status, d.opts.ceiling = some (C, status) → r.dec.totalOut.toNat = q + o.length) ∧
      (w'.room = 0 → o.length = buf.availOut) ∧
      r.status = if st = .streamEnd then
          d.opts.closing (q + o.length) (decide (u < buf.unread.length)) .streamEnd else st := by
  intro r
  obtain ⟨-, -, -, -, hdec, hstatus⟩ := d.settle_moved hb st s hm
  obtain ⟨hu, ho, heq⟩ := hm
  simp only [StreamDecoder.shownWindow] at hu ho
  have hcounted (C : UInt64) (status : Status) (hc : d.opts.ceiling = some (C, status)) :
      r.dec.totalOut.toNat = q + o.length := by
    have hall := habove.above C status hc
    have hlt := C.toNat_lt
    rw [hdec]
    dsimp only
    rw [UInt64.toNat_add, UInt64.toNat_ofNat', hcount C status hc, Nat.mod_eq_of_lt (by omega)]
    omega
  have hroomy (hcap : (d.allowance buf.availOut).2 = true) :
      o.length < (d.allowance buf.availOut).1 ∧ (d.allowance buf.availOut).1 ≠ 0 := by
    cases hc : d.opts.ceiling with
    | none => simp [d.allowance_none hc] at hcap
    | some C =>
      have hall := habove.above C.1 C.2 hc
      have hsome := d.allowance_some hc buf.availOut
      rw [hcount C.1 C.2 hc] at hsome
      rw [hsome] at hcap ⊢
      simp only [decide_eq_true_eq] at hcap ⊢
      omega
  refine ⟨hcounted, fun hroom => ?_, ?_⟩
  · rw [heq] at hroom
    simp only [Window.put_room, Window.take_room, StreamDecoder.shownWindow] at hroom
    have hwhole : (d.allowance buf.availOut).1 = buf.availOut := by
      refine d.allowance_eq_room ?_
      by_contra hcap
      have := (hroomy (by simpa using hcap)).1
      omega
    omega
  · have hadm : r.dec.opts.Admits r.dec.totalOut := by
      rw [DecoderOpts.admits_iff]
      intro C status hc
      have hopts : r.dec.opts = d.opts := by rw [hdec]
      rw [hopts] at hc
      have := habove.above C status hc
      have := hcounted C status hc
      omega
    have hopts : r.dec.opts = d.opts := by rw [hdec]
    rw [show r.status = _ from hstatus,
      Decoder.verdict_of_admitted (by rw [hopts]; exact habove.noRatio) hadm, hopts]
    by_cases hst : st = .streamEnd
    · rw [if_pos hst]
      subst hst
      have hexp : (d.opts.hasExpected = true ∧ r.dec.totalOut ≠ d.opts.expectedSize) ↔
          (d.opts.hasExpected = true ∧ d.opts.expectedSize.toNat ≠ q + o.length) := by
        refine and_congr_right fun hexp => not_congr ?_
        obtain ⟨⟨C, status⟩, hc⟩ := Option.isSome_iff_exists.mp (d.opts.ceiling_isSome hexp)
        rw [← hcounted C status hc, ← UInt64.toNat_inj, eq_comm]
      unfold DecoderOpts.closing
      rw [if_pos rfl]
      by_cases hsize : d.opts.hasExpected = true ∧ d.opts.expectedSize.toNat ≠ q + o.length
      · rw [if_pos ⟨rfl, hexp.mpr hsize⟩, if_pos hsize]
        rfl
      · rw [if_neg fun h => hsize (hexp.mp h.2), if_neg hsize]
        by_cases htail : decide (u < buf.unread.length) = true ∧ d.opts.rejectTrailing = true
        · rw [if_pos ⟨rfl, htail⟩, if_pos htail]
          rfl
        · rw [if_neg fun h => htail h.2, if_neg htail, if_neg (by simp), if_neg (by simp)]
          rfl
    · rw [if_neg hst, if_neg (by simp [hst]), if_neg (by simp [hst]), if_neg fun h => ?_,
        if_neg fun h => ?_]
      · rfl
      · exact (hroomy h.1).2 h.2.1
      · have := (hroomy h.1).1
        omega

theorem Decoder.settle_dataError (d : Decoder v) (buf : Buffer) (s : v.Dec) (after : Buffer)
    (hmax : d.opts.maxOutput = 0) (hratio : d.opts.maxRatio = 0) :
    (d.settle buf (.errInvalidData, s, after)).status = .errInvalidData := by
  have hover (hcap : (d.allowance buf.availOut).2 = true) :
      d.opts.overStatus = .errInvalidData := by
    unfold DecoderOpts.overStatus
    cases hc : d.opts.ceiling with
    | none => simp [d.allowance_none hc] at hcap
    | some c =>
      unfold DecoderOpts.ceiling at hc
      rw [if_neg (show ¬ d.opts.maxOutput ≠ 0 by simp [hmax])] at hc
      split_ifs at hc
      obtain rfl := Option.some.inj hc
      rfl
  simp only [settle, verdict]
  rw [if_neg (by simp), if_neg (by simp), if_neg (by simp)]
  split_ifs with h1 h2 h3 h4
  · exact hover h1.1
  · exact absurd hmax h2.1
  · rfl
  · exact absurd hratio h4.2.1
  · rfl

namespace ClosingDecoder

variable (k : ClosingDecoder v) {chunks : List (List UInt8)} {opts : DecoderOpts} {f : Feed v}
  {p q : ℕ}

/-- The codec gives up on the call the caller is about to make. -/
def FailsAt (f : Feed v) : Prop :=
  k.Fails f.dec.state (StreamDecoder.shownWindow f.dec (.ofParts f.unread f.room)) f.mode

/-- An open handle at a position of the course, its output counter exact under a ceiling. -/
structure Open (opts : DecoderOpts) (d : Decoder v) (last : Bool) (p q : ℕ) : Prop where
  at_ : k.At d.state last p q
  unfinished : d.finished = false
  opts_eq : d.opts = opts
  counted : ∀ C status, opts.ceiling = some (C, status) → d.totalOut.toNat = q

/-- What a call answers that reads `u` bytes and writes `o`. -/
inductive Closes (opts : DecoderOpts) (d' : Decoder v) (p q : ℕ) (buf : Buffer) (mode : Flush)
    (u : ℕ) (o : List UInt8) : Status → Prop
  | closed {st : Status} (written : q + o.length = k.coding.text.length)
      (ends : k.Ends (k.waits p) (mode == .finish) (p + u) (buf.unread.drop u).isEmpty st)
      (finished : d'.finished = (st == .streamEnd)) (opts_eq : d'.opts = opts) :
      Closes opts d' p q buf mode u o
        (opts.closing k.coding.text.length (u < buf.unread.length) st)
  | hungry (next : k.Open opts d' (mode == .finish) (p + u) (q + o.length))
      (more : mode ≠ .finish) (empty : buf.unread.drop u = []) :
      Closes opts d' p q buf mode u o .needInput
  | full (next : k.Open opts d' (mode == .finish) (p + u) (q + o.length))
      (noRoom : o.length = buf.availOut)
      (owing : q + o.length < k.coding.text.length ∨ k.waits (p + u) = false) :
      Closes opts d' p q buf mode u o .needOutput

variable {k} {d : Decoder v} {last : Bool}

/-- A call of an open handle that does not fail moves on in the course, or ends it. -/
theorem process_closes (buf : Buffer) (mode : Flush) (h : k.Open opts d last p q)
    (hb : checkBuffer buf = .ok) (habove : opts.Above k.coding.text.length)
    (hlast : last = true → mode = .finish) (hmode : mode ≠ .flush)
    (hx : k.coding.Shows p buf.unread (mode = .finish))
    (hf : ¬ k.Fails d.state (StreamDecoder.shownWindow d buf) mode) :
    ∃ u o, StreamDecoder.Moved k.coding q buf u o (decoderProcess d buf mode).2.2 ∧
      k.Closes opts (decoderProcess d buf mode).2.1 p q buf mode u o
        (decoderProcess d buf mode).1 := by
  have hans := k.answers (w := StreamDecoder.shownWindow d buf) h.at_ hlast hmode hx
  obtain rfl := h.opts_eq
  rcases hr : k.process d.state (StreamDecoder.shownWindow d buf) mode with ⟨st, s, w'⟩
  rw [hr] at hans
  simp only [decoderProcess, decoderCall_lifted k.lifted hb h.unfinished hmode hr]
  have hbound := (k.bounds h.at_).2
  -- what the driver makes of the codec's moves
  have hsettled (st : Status) {w' : Window} {u : ℕ} {o : List UInt8}
      (hm : (StreamDecoder.shownWindow d buf).Moved u o w') (hw : k.coding.Writes q o) :
      let r := d.settle buf (st, s, (d.shown buf).advance w')
      StreamDecoder.Moved k.coding q buf u o r.buf ∧
        (st ≠ .streamEnd → k.At s (mode == .finish) (p + u) (q + o.length) →
          k.Open d.opts r.dec (mode == .finish) (p + u) (q + o.length)) ∧
        (w'.room = 0 → o.length = buf.availOut) ∧
        r.status = if st = .streamEnd then
            d.opts.closing (q + o.length) (decide (u < buf.unread.length)) .streamEnd else st := by
    intro r
    obtain ⟨hunread, hpos, hsize, hstored, hdec, -⟩ := d.settle_moved hb st s hm
    have hle := hw.length_le
    obtain ⟨hcount, hroom, hstatus⟩ :=
      d.settle_above hb habove h.counted st s hm (by omega)
    obtain ⟨hu, ho, -⟩ := hm
    simp only [StreamDecoder.shownWindow] at hu ho
    refine ⟨⟨hunread, hpos, hsize, hstored, hu, ho.trans (d.allowance_le buf.availOut), hw⟩,
      fun hst hat => ⟨?_, ?_, ?_, hcount⟩, hroom, hstatus⟩
    · simpa [r, hdec] using hat
    · simp [r, hdec, hst]
    · simp [r, hdec]
  cases hans with
  | @closed _ _ _ u o moved writes written ends =>
    obtain ⟨hmoved, -, -, hstatus⟩ := hsettled st moved writes
    refine ⟨u, o, hmoved, ?_⟩
    have hin : w'.input = buf.unread.drop u := by rw [moved.eq]; rfl
    rw [hin] at ends
    obtain ⟨-, -, -, -, hdec, -⟩ := d.settle_moved hb st s moved
    have hclosed : k.Closes d.opts (d.settle buf (st, s, (d.shown buf).advance w')).dec p q buf mode
        u o _ := .closed written ends (by rw [hdec]) (by rw [hdec])
    rw [hstatus, written]
    by_cases hst : st = .streamEnd
    · subst hst
      rwa [if_pos rfl]
    · rw [if_neg hst]
      rwa [DecoderOpts.closing, if_neg hst] at hclosed
  | @hungry _ _ u o moved writes at_ more empty stall =>
    obtain ⟨hmoved, hopen, -, hstatus⟩ := hsettled .needInput moved writes
    have hin : w'.input = buf.unread.drop u := by rw [moved.eq]; rfl
    rw [hstatus, if_neg (by simp)]
    exact ⟨u, o, hmoved, .hungry (hopen (by simp) at_) (by simpa using more) (hin ▸ empty)⟩
  | @full _ _ u o moved writes at_ noRoom owing =>
    obtain ⟨hmoved, hopen, hroom, hstatus⟩ := hsettled .needOutput moved writes
    rw [hstatus, if_neg (by simp)]
    refine ⟨u, o, hmoved, .full (hopen (by simp) at_) (hroom noRoom) ?_⟩
    rcases owing with hlt | ⟨-, -, hstall⟩
    · exact .inl hlt
    · refine .inr ?_
      by_contra hw
      exact (k.delivered at_ (by simpa using hw)).2 hstall
  | failed fail => exact absurd fail hf

/-- A call that fails reports the data error, where at most a size is expected. -/
theorem process_fails (buf : Buffer) (mode : Flush) (h : k.Open opts d last p q)
    (hb : checkBuffer buf = .ok) (hmax : opts.maxOutput = 0) (hratio : opts.maxRatio = 0)
    (hlast : last = true → mode = .finish) (hmode : mode ≠ .flush)
    (hx : k.coding.Shows p buf.unread (mode = .finish))
    (hf : k.Fails d.state (StreamDecoder.shownWindow d buf) mode) :
    (decoderProcess d buf mode).1 = .errInvalidData ∧
      ∃ u, (decoderProcess d buf mode).2.2.unread = buf.unread.drop u ∧ u ≤ buf.unread.length ∧
        p + u < k.valid := by
  have hst := k.fails (w := StreamDecoder.shownWindow d buf) h.at_ hlast hmode hx hf
  obtain rfl := h.opts_eq
  rcases hr : k.process d.state (StreamDecoder.shownWindow d buf) mode with ⟨st, s, w'⟩
  rw [hr] at hst
  obtain ⟨rfl, u, o, hm, hlt⟩ : st = .errInvalidData ∧ _ := hst
  simp only [decoderProcess, decoderCall_lifted k.lifted hb h.unfinished hmode hr]
  exact ⟨d.settle_dataError buf s _ hmax hratio, u, (d.settle_moved hb _ s hm).1, hm.read_le, hlt⟩

/-! ## The caller -/

variable (k) in
/-- A caller that has read `p` bytes of the stream and been given `q`. -/
structure Follows (chunks : List (List UInt8)) (opts : DecoderOpts) (f : Feed v) (p q : ℕ) :
    Prop where
  standing : ∃ last, k.Open opts f.dec last p q ∧ (last = true → f.later = [])
  piece : ∃ i, 1 ≤ i ∧ i ≤ chunks.length ∧ f.later = chunks.drop i ∧
    (chunks.take (i - 1)).flatten.length ≤ p
  rest : f.unread ++ f.later.flatten = k.coding.code.drop p
  writes : k.coding.Writes 0 f.written
  count : f.written.length = q
  waited : k.waits p = true → Boundary chunks p

variable (k) in
/-- The call that ends the stream, what it reads and writes, and the codec's status. -/
structure Ending (chunks : List (List UInt8)) (opts : DecoderOpts) (f : Feed v) (p q u : ℕ)
    (o : List UInt8) (st : Status) : Prop where
  follows : k.Follows chunks opts f p q
  moved : StreamDecoder.Moved k.coding q (.ofParts f.unread f.room) u o
    (decoderProcess f.dec (.ofParts f.unread f.room) f.mode).2.2
  all : f.written ++ o = k.coding.text
  ends : k.Ends (k.waits p) (f.mode == .finish) (p + u) (f.unread.drop u).isEmpty st
  status : (decoderProcess f.dec (.ofParts f.unread f.room) f.mode).1 =
    opts.closing k.coding.text.length (u < f.unread.length) st
  finished : (decoderProcess f.dec (.ofParts f.unread f.room) f.mode).2.1.finished =
    (st == .streamEnd)
  opts_eq : (decoderProcess f.dec (.ofParts f.unread f.room) f.mode).2.1.opts = opts

theorem Follows.shows (h : k.Follows chunks opts f p q) :
    k.coding.Shows p f.unread (f.mode = .finish) := by
  refine ⟨⟨_, h.rest⟩, fun hm => ?_⟩
  simpa [f.later_of_finish (by simp [hm])] using h.rest

theorem Follows.read_le (h : k.Follows chunks opts f p q) : p ≤ k.coding.code.length := by
  obtain ⟨last, hopen, -⟩ := h.standing
  exact (k.bounds hopen.at_).1

theorem Follows.split (h : k.Follows chunks opts f p q) (hcode : chunks.flatten = k.coding.code)
    {i : ℕ} (hlater : f.later = chunks.drop i) :
    p + f.unread.length = (chunks.take i).flatten.length := by
  have hrest := congrArg List.length h.rest
  have hsplit := StreamDecoder.flatten_split hcode i
  have hp := h.read_le
  rw [List.length_append, List.length_drop, hlater] at hrest
  omega

theorem Follows.unread_le (h : k.Follows chunks opts f p q) (hcode : chunks.flatten = k.coding.code) :
    ∃ chunk ∈ chunks, f.unread.length ≤ chunk.length := by
  obtain ⟨i, h1, hi, hlater, hp⟩ := h.piece
  have hsplit := h.split hcode hlater
  obtain ⟨j, rfl⟩ : ∃ j, i = j + 1 := ⟨i - 1, by omega⟩
  refine ⟨chunks[j], List.getElem_mem _, ?_⟩
  rw [List.take_succ_eq_append_getElem (by omega), List.flatten_append, List.length_append,
    List.flatten_singleton] at hsplit
  simp only [Nat.add_sub_cancel] at hp
  omega

theorem Follows.lt_of_run (h : k.Follows chunks opts f p q) (hmore : f.mode ≠ .finish) :
    ∃ i, 1 ≤ i ∧ i < chunks.length ∧ f.later = chunks.drop i := by
  obtain ⟨i, h1, hi, hlater, -⟩ := h.piece
  have hne : f.later ≠ [] := fun h => hmore (by simp [Feed.mode, h])
  refine ⟨i, h1, ?_, hlater⟩
  by_contra hge
  exact hne (by rw [hlater, List.drop_eq_nil_of_le (by omega)])

/-- A caller that goes on from a call, with the handle at its next place. -/
theorem Follows.goOn (h : k.Follows chunks opts f p q) (hcode : chunks.flatten = k.coding.code)
    {u : ℕ} {o : List UInt8} {buf' : Buffer}
    (hm : StreamDecoder.Moved k.coding q (.ofParts f.unread f.room) u o buf') {d' : Decoder v}
    (hopen : k.Open opts d' (f.mode == .finish) (p + u) (q + o.length)) (room calls : ℕ) :
    (k.waits (p + u) = false → k.Follows chunks opts ⟨d', f.unread.drop u, f.later, room, calls,
      f.written ++ o⟩ (p + u) (q + o.length)) ∧
    (f.unread.drop u = [] → ∀ {chunk later}, f.later = chunk :: later →
      k.Follows chunks opts ⟨d', chunk, later, room, calls, f.written ++ o⟩ (p + u)
        (q + o.length)) := by
  have hread : u ≤ f.unread.length := by simpa using hm.read_le
  have hwritten : k.coding.Writes 0 (f.written ++ o) :=
    h.writes.append (by simpa [h.count] using hm.writes)
  have hlen : (f.written ++ o).length = q + o.length := by simp [h.count]
  have hrest : f.unread.drop u ++ f.later.flatten = k.coding.code.drop (p + u) := by
    rw [← List.drop_drop, ← h.rest, List.drop_append_of_le_length hread]
  refine ⟨fun hwaits => ?_, fun hnil chunk later hcons => ?_⟩
  · obtain ⟨i, h1, hi, hlater, hp⟩ := h.piece
    exact ⟨⟨_, hopen, f.later_of_finish⟩, ⟨i, h1, hi, hlater, by omega⟩, hrest, hwritten, hlen,
      fun h => by rw [hwaits] at h; cases h⟩
  · have hrun : f.mode ≠ .finish := by simp [Feed.mode, hcons]
    obtain ⟨i, h1, hi, hlater⟩ := h.lt_of_run hrun
    have hsplit := h.split hcode hlater
    rw [hlater, List.drop_eq_getElem_cons hi] at hcons
    obtain ⟨rfl, rfl⟩ := List.cons.inj hcons
    have hend : p + u = (chunks.take i).flatten.length := by
      rw [List.drop_eq_nil_iff] at hnil
      omega
    refine ⟨⟨_, hopen, by simp [hrun]⟩, ⟨i + 1, by omega, by omega, rfl, hend.ge⟩, ?_, hwritten,
      hlen, fun _ => ⟨i, h1, hi, hend⟩⟩
    rwa [hnil, hlater, List.drop_eq_getElem_cons hi, List.nil_append, List.flatten_cons] at hrest

/-- A call that does not fail moves the caller on in the course, or ends it. -/
theorem feedTurn_follows (ws : Windows) (hcode : chunks.flatten = k.coding.code)
    (habove : opts.Above k.coding.text.length) (h : k.Follows chunks opts f p q)
    (hf : ¬ k.FailsAt f) :
    Turn (fun f' => (∃ p' q', k.Follows chunks opts f' p' q') ∧
        StreamDecoder.feedMeasure k.coding f' < StreamDecoder.feedMeasure k.coding f)
      (fun r => ∃ u o st, k.Ending chunks opts f p q u o st ∧
        r = ⟨opts.closing k.coding.text.length (u < f.unread.length) st, k.coding.text⟩)
      (feedTurn ws f) := by
  obtain ⟨last, hopen, hlast⟩ := h.standing
  obtain ⟨u, o, hm, hc⟩ := process_closes (.ofParts f.unread f.room) f.mode hopen
    (checkBuffer_ofParts ..) habove (fun hl => by simp [Feed.mode, hlast hl])
    (StreamDecoder.Fed.mode_ne f) (by simpa using h.shows) hf
  have hunread : (decoderProcess f.dec (.ofParts f.unread f.room) f.mode).2.2.unread =
      f.unread.drop u := by simpa using hm.unread
  have hstored : (decoderProcess f.dec (.ofParts f.unread f.room) f.mode).2.2.stored = o :=
    hm.stored
  have hwritten : k.coding.Writes 0 (f.written ++ o) :=
    h.writes.append (by simpa [h.count] using hm.writes)
  have hlen : (f.written ++ o).length = q + o.length := by simp [h.count]
  have hbound := hm.writes.length_le
  have hending := @Ending.mk v k chunks opts f p q u o
  unfold feedTurn
  dsimp only
  rw [hstored, hunread]
  generalize hst : (decoderProcess f.dec (.ofParts f.unread f.room) f.mode).1 = st at hc ⊢
  cases hc with
  | @closed st written ends finished opts_eq =>
    obtain ⟨hin, hout⟩ := k.final ends
    have hdone : f.written ++ o = k.coding.text := hwritten.eq_text (by rw [hlen, written])
    have hend := hending h hm hdone (by simpa using ends) (by simpa using hst) finished opts_eq
    have hne : opts.closing k.coding.text.length (u < f.unread.length) st ≠ .needInput ∧
        opts.closing k.coding.text.length (u < f.unread.length) st ≠ .needOutput := by
      unfold DecoderOpts.closing
      split_ifs <;> simp [hin, hout]
    simp only [Buffer.unread_ofParts] at hst ⊢
    rw [hdone]
    split
    · next heq _ => exact absurd heq hne.1
    · next heq _ => exact absurd heq hne.2
    · next heq _ => exact absurd heq hne.2
    · exact ⟨u, o, st, hend, rfl⟩
  | hungry next more empty =>
    simp only [Buffer.unread_ofParts] at empty
    obtain ⟨i, h1, hi, hlater⟩ := h.lt_of_run more
    have hcons : f.later = chunks[i] :: chunks.drop (i + 1) := by
      rw [hlater, List.drop_eq_getElem_cons hi]
    rw [hcons]
    simp only [turn_inl]
    rw [empty, List.nil_append]
    refine ⟨⟨_, _, (h.goOn hcode hm next _ _).2 empty hcons⟩, ?_⟩
    simp only [StreamDecoder.feedMeasure, hcons, List.length_cons, hlen, h.count]
    split_ifs <;> omega
  | full next noRoom owing =>
    simp only [Buffer.availOut_ofParts] at noRoom
    obtain ⟨hp', hq'⟩ := k.bounds next.at_
    -- a decoder that waits has delivered all of its text
    have hwaits : k.waits (p + u) = false := by
      rcases owing with hlt | hno
      · by_contra hw
        have := (k.delivered next.at_ (by simpa using hw)).1
        omega
      · exact hno
    have hpos := ws.pos f.calls
    have hfresh := (h.goOn hcode hm next (ws.size f.calls) (f.calls + 1)).1 hwaits
    have hless : StreamDecoder.feedMeasure k.coding ⟨(decoderProcess f.dec
        (.ofParts f.unread f.room) f.mode).2.1, f.unread.drop u, f.later, ws.size f.calls,
        f.calls + 1, f.written ++ o⟩ < StreamDecoder.feedMeasure k.coding f := by
      simp only [StreamDecoder.feedMeasure, hlen, h.count]
      split_ifs <;> omega
    cases hcons : f.later with
    | nil =>
      rw [hcons] at hfresh hless
      exact ⟨⟨_, _, hfresh⟩, hless⟩
    | cons chunk later =>
      dsimp only
      split_ifs with hrefill
      · rw [hrefill.2, List.nil_append]
        refine ⟨⟨_, _, (h.goOn hcode hm next _ _).2 hrefill.2 hcons⟩, ?_⟩
        simp only [StreamDecoder.feedMeasure, hcons, List.length_cons, hlen, h.count]
        split_ifs <;> omega
      · rw [hcons] at hfresh hless
        exact ⟨⟨_, _, hfresh⟩, hless⟩

theorem feedTurn_fails (ws : Windows) (hmax : opts.maxOutput = 0) (hratio : opts.maxRatio = 0)
    (h : k.Follows chunks opts f p q) (hf : k.FailsAt f) :
    ∃ written, feedTurn ws f = .inr ⟨.errInvalidData, written⟩ ∧
      k.coding.code.length - k.valid <
        ((decoderProcess f.dec (.ofParts f.unread f.room) f.mode).2.2.unread ++
          f.later.flatten).length := by
  obtain ⟨last, hopen, hlast⟩ := h.standing
  obtain ⟨herr, u, hunread, hu, hlt⟩ := process_fails (.ofParts f.unread f.room) f.mode hopen
    (checkBuffer_ofParts ..) hmax hratio (fun hl => by simp [Feed.mode, hlast hl])
    (StreamDecoder.Fed.mode_ne f) (by simpa using h.shows) hf
  rw [Buffer.unread_ofParts] at hunread hu
  refine ⟨f.written ++ (decoderProcess f.dec (.ofParts f.unread f.room) f.mode).2.2.stored, ?_, ?_⟩
  · unfold feedTurn
    dsimp only
    rw [herr]
  · have hrest := congrArg List.length h.rest
    have hle := h.read_le
    have hvalid := k.valid_le
    rw [hunread]
    simp only [List.length_append, List.length_drop] at hrest ⊢
    omega

theorem follows_start {d : Decoder v} (h : k.Open opts d false 0 0) (hwaits : k.waits 0 = false)
    (hcode : chunks.flatten = k.coding.code) (hne : chunks ≠ []) (room : ℕ) :
    k.Follows chunks opts (Feed.start d room chunks) 0 0 := by
  cases chunks with
  | nil => exact absurd rfl hne
  | cons chunk later =>
    exact ⟨⟨false, h, by simp⟩, ⟨1, le_rfl, by simp, rfl, by simp⟩,
      by simpa [Feed.start] using hcode, .nil, rfl, by simp [hwaits]⟩

section Runs

variable {d : Decoder v} (ws : Windows) (habove : opts.Above k.coding.text.length)
  (hmax : opts.maxOutput = 0)

include habove hmax

/-- Every call of the caller keeps its place. -/
theorem Follows.reaches (hcode : chunks.flatten = k.coding.code) {f' : Feed v}
    (h : k.Follows chunks opts f p q) (hr : Reaches (feedTurn ws) f f') :
    ∃ p q, k.Follows chunks opts f' p q := by
  refine hr.invariant (fun f => ∃ p q, k.Follows chunks opts f p q) (fun g g' hg hturn => ?_)
    ⟨_, _, h⟩
  obtain ⟨p, q, hg⟩ := hg
  by_cases hf : k.FailsAt g
  · obtain ⟨written, hinr, -⟩ := feedTurn_fails ws hmax habove.noRatio hg hf
    rw [hinr] at hturn
    cases hturn
  · have hmoved := feedTurn_follows ws hcode habove hg hf
    rw [hturn] at hmoved
    exact hmoved.1

theorem failsAt_last (hcode : chunks.flatten = k.coding.code) {room : ℕ} {g : Feed v}
    (hstart : k.Follows chunks opts (Feed.start d room chunks) 0 0)
    (hg : Reaches (feedTurn ws) (Feed.start d room chunks) g) (hfails : k.FailsAt g) {r : FeedEnd}
    (hf : Reaches (feedTurn ws) (Feed.start d room chunks) f) (hturn : feedTurn ws f = .inr r) :
    f = g := by
  obtain ⟨p, q, hfollows⟩ := hstart.reaches ws habove hmax hcode hg
  obtain ⟨written, hinr, -⟩ := feedTurn_fails ws hmax habove.noRatio hfollows hfails
  exact Reaches.returns_unique hf hturn hg hinr

/-- After finitely many calls the caller comes to one that fails, or to the end of the course. -/
theorem feed_ends (h : k.Open opts d false 0 0) (hwaits : k.waits 0 = false)
    (hcode : chunks.flatten = k.coding.code) (hne : chunks ≠ []) (room : ℕ) :
    ∃ f p q, Reaches (feedTurn ws) (Feed.start d room chunks) f ∧
      k.Follows chunks opts f p q ∧
      (k.FailsAt f ∨
        (∀ g, Reaches (feedTurn ws) (Feed.start d room chunks) g → ¬ k.FailsAt g) ∧
        ∃ u o st, k.Ending chunks opts f p q u o st ∧ feedTurn ws f =
          .inr ⟨opts.closing k.coding.text.length (u < f.unread.length) st, k.coding.text⟩) := by
  have hstart := follows_start h hwaits hcode hne room
  have hturns (f : Feed v) (hf : ∃ p q, k.Follows chunks opts f p q) :
      Turn (fun f' => (∃ p q, k.Follows chunks opts f' p q) ∧
          StreamDecoder.feedMeasure k.coding f' < StreamDecoder.feedMeasure k.coding f)
        (fun _ => True) (feedTurn ws f) := by
    obtain ⟨p, q, hfollows⟩ := hf
    by_cases hf : k.FailsAt f
    · obtain ⟨written, hinr, -⟩ := feedTurn_fails ws hmax habove.noRatio hfollows hf
      rw [hinr]
      exact trivial
    · exact (feedTurn_follows ws hcode habove hfollows hf).mono (fun _ hs => hs) fun _ _ => trivial
  obtain ⟨r, ⟨f, hreach, hturn⟩, -⟩ := returns_of_measure _ _ hturns ⟨_, _, hstart⟩
  obtain ⟨p, q, hfollows⟩ := hstart.reaches ws habove hmax hcode hreach
  refine ⟨f, p, q, hreach, hfollows, ?_⟩
  by_cases hf : k.FailsAt f
  · exact .inl hf
  · have hmoved := feedTurn_follows ws hcode habove hfollows hf
    rw [hturn] at hmoved
    obtain ⟨u, o, st, hend, rfl⟩ := hmoved
    refine .inr ⟨fun g hg hfails => hf ?_, u, o, st, hend, hturn⟩
    rwa [failsAt_last ws habove hmax hcode hstart hg hfails hreach hturn]

end Runs

end ClosingDecoder

end Zukomp
