import Zukomp.Core.StreamEnd
import Zukomp.Library.Coding
import Zukomp.Library.Loop

/-! # The streaming contract of a decoder

What a codec owes for one stream, call by call: the text in order, an end exactly when
all of the code is read and all of the text is written, a request for input or output
otherwise. The driver's verdict on such a codec is a matter of the ceiling alone.
-/

namespace Zukomp

open Library

/-- The answers of a decoder that has read `p` bytes of the code and written `q` of the
text, in a call that is the last of the stream or not. `Stall` holds where the decoder
asks for room although the text is complete, and `fails` when the call gives up. -/
inductive Answer {σ : Type} (c : Coding UInt8) (At : σ → Bool → ℕ → ℕ → Prop)
    (Stall : ℕ → Prop) (fails : Prop) (p q : ℕ) (w : Window) (last : Bool) :
    Status × σ × Window → Prop
  | ended {s : σ} {w' : Window} {u : ℕ} {o : List UInt8} (moved : w.Moved u o w')
      (writes : c.Writes q o) (read : p + u = c.code.length)
      (written : q + o.length = c.text.length) :
      Answer c At Stall fails p q w last (.streamEnd, s, w')
  | hungry {s : σ} {w' : Window} {u : ℕ} {o : List UInt8} (moved : w.Moved u o w')
      (writes : c.Writes q o) (at_ : At s last (p + u) (q + o.length)) (more : last = false)
      (empty : w'.input = [])
      (stall : Stall (p + u) → w'.room ≠ 0 ∧ q + o.length = c.text.length) :
      Answer c At Stall fails p q w last (.needInput, s, w')
  | full {s : σ} {w' : Window} {u : ℕ} {o : List UInt8} (moved : w.Moved u o w')
      (writes : c.Writes q o) (at_ : At s last (p + u) (q + o.length)) (noRoom : w'.room = 0)
      (owing : q + o.length < c.text.length ∨ w'.input = [] ∧ last = false ∧ Stall (p + u)) :
      Answer c At Stall fails p q w last (.needOutput, s, w')
  | failed {s : σ} {w' : Window} (fail : fails) :
      Answer c At Stall fails p q w last (.errInvalidData, s, w')

theorem Answer.after {σ : Type} {c : Coding UInt8} {At : σ → Bool → ℕ → ℕ → Prop}
    {Stall : ℕ → Prop} {fails : Prop} {p q u : ℕ} {w w' : Window} {o : List UInt8} {last : Bool}
    {r : Status × σ × Window} (hm : w.Moved u o w') (hw : c.Writes q o)
    (h : Answer c At Stall fails (p + u) (q + o.length) w' last r) :
    Answer c At Stall fails p q w last r := by
  cases h with
  | ended moved writes read written =>
    exact .ended (hm.trans moved) (hw.append writes) (by omega)
      (by rw [List.length_append]; omega)
  | hungry moved writes at_ more empty stall =>
    refine .hungry (hm.trans moved) (hw.append writes) ?_ more empty ?_
    · rwa [List.length_append, ← Nat.add_assoc, ← Nat.add_assoc]
    · rwa [List.length_append, ← Nat.add_assoc, ← Nat.add_assoc]
  | full moved writes at_ noRoom owing =>
    refine .full (hm.trans moved) (hw.append writes) ?_ noRoom ?_
    · rwa [List.length_append, ← Nat.add_assoc, ← Nat.add_assoc]
    · rwa [List.length_append, ← Nat.add_assoc, ← Nat.add_assoc]
  | failed fail => exact .failed fail

/-- What a turn of a codec's loop owes at `(p, q)`: to move on in the stream, where `At` holds, or to
answer. -/
def Carries {σ : Type} (c : Coding UInt8) (At At' : σ → Bool → ℕ → ℕ → Prop) (Stall : ℕ → Prop)
    (fails : Prop) (p q : ℕ) (w : Window) (last : Bool) :
    σ × Window ⊕ Status × σ × Window → Prop :=
  Turn
    (fun y => ∃ u o, w.Moved u o y.2 ∧ c.Writes q o ∧ At y.1 last (p + u) (q + o.length))
    (Answer c At' Stall fails p q w last)

theorem Carries.after {σ : Type} {c : Coding UInt8} {At At' : σ → Bool → ℕ → ℕ → Prop}
    {Stall : ℕ → Prop} {fails : Prop} {p q u : ℕ} {w w' : Window} {o : List UInt8} {last : Bool}
    {r : σ × Window ⊕ Status × σ × Window} (hm : w.Moved u o w') (hw : c.Writes q o)
    (h : Carries c At At' Stall fails (p + u) (q + o.length) w' last r) :
    Carries c At At' Stall fails p q w last r := by
  refine Turn.mono h ?_ fun r hr => hr.after hm hw
  rintro y ⟨u', o', hm', hw', hat⟩
  refine ⟨u + u', o ++ o', hm.trans hm', hw.append hw', ?_⟩
  rwa [List.length_append, ← Nat.add_assoc, ← Nat.add_assoc]

theorem Answer.mono {σ : Type} {c : Coding UInt8} {At At' : σ → Bool → ℕ → ℕ → Prop}
    {Stall : ℕ → Prop} {fails : Prop} {p q : ℕ} {w : Window} {last : Bool}
    {r : Status × σ × Window} (hat : ∀ s u v, At s last (p + u) (q + v) → At' s last (p + u) (q + v))
    (h : Answer c At Stall fails p q w last r) : Answer c At' Stall fails p q w last r := by
  cases h with
  | ended moved writes read written => exact .ended moved writes read written
  | hungry moved writes at_ more empty stall =>
    exact .hungry moved writes (hat _ _ _ at_) more empty stall
  | full moved writes at_ noRoom owing => exact .full moved writes (hat _ _ _ at_) noRoom owing
  | failed fail => exact .failed fail

theorem Carries.mono {σ : Type} {c : Coding UInt8} {At At' At₂ At₂' : σ → Bool → ℕ → ℕ → Prop}
    {Stall : ℕ → Prop} {fails : Prop} {p q : ℕ} {w : Window} {last : Bool}
    {r : σ × Window ⊕ Status × σ × Window}
    (hat : ∀ s u v, At s last (p + u) (q + v) → At₂ s last (p + u) (q + v))
    (hat' : ∀ s u v, At' s last (p + u) (q + v) → At₂' s last (p + u) (q + v))
    (h : Carries c At At' Stall fails p q w last r) :
    Carries c At₂ At₂' Stall fails p q w last r := by
  refine Turn.mono h ?_ fun r hr => hr.mono hat'
  rintro y ⟨u, o, hm, hw, hy⟩
  exact ⟨u, o, hm, hw, hat _ _ _ hy⟩

/-- A loop whose turns carry the stream and decrease a measure answers for the whole call. -/
theorem answer_of_turns {σ : Type} {c : Coding UInt8} {At At' : σ → Bool → ℕ → ℕ → Prop}
    {Stall : ℕ → Prop} {fails : Prop} {last : Bool} {final : Prop}
    {turn : σ × Window → σ × Window ⊕ Status × σ × Window}
    {stuck : σ × Window → Status × σ × Window} (μ : σ × Window → ℕ) {p q : ℕ}
    (hturn : ∀ s w u v, At s last (p + u) (q + v) → c.Shows (p + u) w.input final →
      Carries c At At' Stall fails (p + u) (q + v) w last (turn (s, w)) ∧
        ∀ y, turn (s, w) = .inl y → μ y < μ (s, w))
    {s : σ} {w : Window} (h : At s last p q) (hx : c.Shows p w.input final) {fuel : ℕ}
    (hfuel : μ (s, w) < fuel) :
    Answer c At' Stall fails p q w last (runLoop turn stuck fuel (s, w)) := by
  refine runLoop_rule (fun y => ∃ u o, w.Moved u o y.2 ∧ c.Writes q o ∧
    At y.1 last (p + u) (q + o.length) ∧ c.Shows (p + u) y.2.input final) _ μ ?_
    ⟨0, [], .refl w, .nil, h, hx⟩ hfuel
  rintro ⟨s', w'⟩ ⟨u, o, hm, hw, hat, hx'⟩
  obtain ⟨hcarries, hless⟩ := hturn s' w' _ _ hat hx'
  cases ht : turn (s', w') with
  | inl y =>
    rw [ht] at hcarries
    obtain ⟨u', o', hm', hw', hat'⟩ := hcarries
    refine ⟨⟨u + u', o ++ o', hm.trans hm', hw.append hw', ?_, ?_⟩, hless y ht⟩
    · rwa [List.length_append, ← Nat.add_assoc, ← Nat.add_assoc]
    · rw [hm'.eq, ← Nat.add_assoc]
      exact hx'.drop u'
  | inr r =>
    rw [ht] at hcarries
    exact Answer.after hm hw hcarries

/-- Where a call at `(p, q)` leaves a decoder: in its place, which it may lose in a call that moves
nothing unless it idles. -/
def KeepsPlace {σ : Type} (At : σ → Bool → ℕ → ℕ → Prop) (Idles : Prop) (p q : ℕ) :
    σ → Bool → ℕ → ℕ → Prop :=
  fun s last p' q' => Idles ∨ (p', q') ≠ (p, q) → At s last p' q'

theorem Answer.keepsPlace {σ : Type} {c : Coding UInt8} {At : σ → Bool → ℕ → ℕ → Prop} {Stall : ℕ → Prop}
    {fails Idles : Prop} {p q : ℕ} {w : Window} {last : Bool} {r : Status × σ × Window}
    (h : Answer c At Stall fails p q w last r) :
    Answer c (KeepsPlace At Idles p q) Stall fails p q w last r := h.mono fun _ _ _ hat _ => hat

theorem moved_of_read {p q u v : ℕ} (hu : 0 < u) : (p + u, q + v) ≠ (p, q) := fun h => by
  have := congrArg Prod.fst h
  omega

theorem moved_of_written {p q u v : ℕ} (hv : 0 < v) : (p + u, q + v) ≠ (p, q) := fun h => by
  have := congrArg Prod.snd h
  omega

/-- A decoder that keeps the contract for the stream `c`, with the relation between its
states and positions in the stream that carries it. The relation notes whether the last
piece of the stream has been announced: from then on every call is under `ZU_FINISH`. -/
structure StreamDecoder (v : CodecVtable) (c : Coding UInt8) where
  process : v.Dec → Window → Flush → Status × v.Dec × Window
  lifted : v.decoderProcess = onBuffer process
  At : v.Dec → Bool → ℕ → ℕ → Prop
  Stall : ℕ → Prop
  Fails : v.Dec → Window → Flush → Prop
  Idles : Prop
  answers : ∀ {s : v.Dec} {last : Bool} {p q : ℕ} {w : Window} {mode : Flush},
    At s last p q → (last = true → mode = .finish) → mode ≠ .flush →
      c.Shows p w.input (mode = .finish) →
        Answer c (KeepsPlace At Idles p q) Stall (Fails s w mode) p q w (mode == .finish)
          (process s w mode)
  fails : ∀ {s : v.Dec} {last : Bool} {p q : ℕ} {w : Window} {mode : Flush},
    At s last p q → (last = true → mode = .finish) → mode ≠ .flush →
      c.Shows p w.input (mode = .finish) → Fails s w mode →
        (process s w mode).1 = .errInvalidData
  bounds : ∀ {s : v.Dec} {last : Bool} {p q : ℕ}, At s last p q →
    p ≤ c.code.length ∧ q ≤ c.text.length
  stall_lt : ∀ {p : ℕ}, Stall p → p < c.code.length

variable {v : CodecVtable}

/-! ## The verdict within the ceilings -/

/-- Within its ceilings and without a ratio limit, the driver refuses a call only for the
expected size at the end, or because the codec wants room past the ceiling. -/
theorem Decoder.verdict_of_admitted {d : Decoder v} (hratio : d.opts.maxRatio = 0)
    (hadm : d.opts.Admits d.totalOut) (st : Status) (capped : Bool) (allowed produced : ℕ)
    (unread : Bool) :
    d.verdict st capped allowed produced unread =
      if st = .streamEnd ∧ d.opts.hasExpected ∧ d.totalOut ≠ d.opts.expectedSize then
        .refused .errInvalidData
      else if st = .streamEnd ∧ unread ∧ d.opts.rejectTrailing then .trailing
      else if capped ∧ st = .needOutput ∧ produced = allowed then .refused d.opts.overStatus
      else if capped ∧ allowed = 0 ∧ st ≠ .streamEnd ∧ unread then .refused d.opts.overStatus
      else .passed := by
  have hmax : ¬ (d.opts.maxOutput ≠ 0 ∧ d.opts.maxOutput < d.totalOut) := fun h =>
    absurd h.2 (UInt64.not_lt.mpr (hadm.1 h.1))
  have hexp : ¬ (d.opts.hasExpected = true ∧ d.opts.expectedSize < d.totalOut) := fun h =>
    absurd h.2 (UInt64.not_lt.mpr (hadm.2 h.1))
  have hrat : ¬ (st ≠ .errOutputLimit ∧ d.opts.maxRatio ≠ 0 ∧ 0 < d.totalOut ∧
      ratioAllowed d.opts.maxRatio d.totalIn < d.totalOut) := fun h => h.2.1 hratio
  unfold verdict
  rw [if_neg hmax, if_neg hexp, if_neg hrat]

/-- What the driver makes of a codec's moves within the window it showed. -/
theorem Decoder.settle_moved (d : Decoder v) {buf : Buffer} (hb : checkBuffer buf = .ok)
    (st : Status) (s : v.Dec) {w' : Window} {u : ℕ} {o : List UInt8}
    (hm : Window.Moved ⟨buf.unread, (d.allowance buf.availOut).1, []⟩ u o w') :
    let r := d.settle buf (st, s, (d.shown buf).advance w')
    r.buf.unread = buf.unread.drop u ∧ r.buf.dstPos = buf.dstPos + o.length ∧
      r.buf.dstSize = buf.dstSize ∧ r.buf.stored = buf.stored ++ o ∧
      r.dec = { state := s, opts := d.opts, finished := st == .streamEnd,
                totalIn := d.totalIn + UInt64.ofNat u,
                totalOut := d.totalOut + UInt64.ofNat o.length } ∧
      r.status = (r.dec.verdict st (d.allowance buf.availOut).2 (d.allowance buf.availOut).1
        o.length (u < buf.unread.length)).status st := by
  obtain ⟨hu, ho, rfl⟩ := hm
  simp only at hu ho
  have hlen := Buffer.unread_length_of_ok hb
  have hpos := checkBuffer_ok hb
  have hsub : buf.unread.length - (buf.unread.length - u) = u := by omega
  have hlt : buf.srcPos + u < buf.srcSize ↔ u < buf.unread.length := by omega
  intro r
  have hdec : r.dec = { state := s, opts := d.opts, finished := st == .streamEnd,
                        totalIn := d.totalIn + UInt64.ofNat u,
                        totalOut := d.totalOut + UInt64.ofNat o.length } := by
    simp [r, settle, cursorSub, Buffer.advance, hsub]
  have hsrc : r.buf.src = buf.src ∧ r.buf.srcPos = buf.srcPos + u := by
    simp only [r, settle]
    split_ifs <;> simp [Buffer.advance, hsub]
  have hdst : r.buf.dstPos = buf.dstPos + o.length ∧ r.buf.dstSize = buf.dstSize ∧
      r.buf.stored = buf.stored ++ o := by
    simp only [r, settle]
    split_ifs with hc
    · simp [Buffer.advance]
    · have hshown : d.shown buf = buf := by rw [shown, if_neg hc]
      simp [hshown, Buffer.advance]
  have hunread : r.buf.unread = buf.unread.drop u := by
    rw [Buffer.unread, hsrc.1, hsrc.2, ← List.drop_drop]
    rfl
  refine ⟨hunread, hdst.1, hdst.2.1, hdst.2.2, hdec, ?_⟩
  rw [hdec]
  simp [r, settle, cursorSub, Buffer.advance, hsub, hlt]

/-! ## One call of the driver -/

/-- The window the driver shows the codec. -/
def StreamDecoder.shownWindow (d : Decoder v) (buf : Buffer) : Window :=
  ⟨buf.unread, (d.allowance buf.availOut).1, []⟩

theorem decoderCall_lifted {d : Decoder v} {buf : Buffer} {mode : Flush}
    {process : v.Dec → Window → Flush → Status × v.Dec × Window}
    (hlift : v.decoderProcess = onBuffer process) (hb : checkBuffer buf = .ok)
    (hfin : d.finished = false) (hmode : mode ≠ .flush) {st : Status} {s : v.Dec} {w' : Window}
    (hr : process d.state (StreamDecoder.shownWindow d buf) mode = (st, s, w')) :
    decoderCall d buf mode = d.settle buf (st, s, (d.shown buf).advance w') := by
  have hwin : (d.shown buf).window = StreamDecoder.shownWindow d buf := by
    simp [Buffer.window, StreamDecoder.shownWindow]
  rw [decoderCall_codec hb hfin (fun hm => absurd hm hmode), hlift, onBuffer, hwin, hr]

theorem decoderProcess_isError {d : Decoder v} {buf : Buffer} {mode : Flush}
    {process : v.Dec → Window → Flush → Status × v.Dec × Window}
    (hlift : v.decoderProcess = onBuffer process) (hb : checkBuffer buf = .ok)
    (hfin : d.finished = false) (hmode : mode ≠ .flush) {st : Status} {s : v.Dec} {w' : Window}
    (hr : process d.state (StreamDecoder.shownWindow d buf) mode = (st, s, w'))
    (herr : st.isError) : (decoderProcess d buf mode).1.isError := by
  rw [decoderProcess, decoderCall_lifted hlift hb hfin hmode hr]
  obtain ⟨capped, allowed, produced, unread, _, hjudged, _⟩ := d.settle_judged
    buf (st, s, (d.shown buf).advance w')
  by_contra hne
  rw [hjudged] at hne
  have := Decoder.verdict_of_not_error (by simpa using hne)
  rw [this] at hne
  exact hne herr

theorem decoderProcess_moved {d : Decoder v} {buf : Buffer} {mode : Flush}
    {process : v.Dec → Window → Flush → Status × v.Dec × Window}
    (hlift : v.decoderProcess = onBuffer process) (hb : checkBuffer buf = .ok)
    (hfin : d.finished = false) (hmode : mode ≠ .flush) {st : Status} {s : v.Dec} {w' : Window}
    {u : ℕ} {o : List UInt8} (hm : (StreamDecoder.shownWindow d buf).Moved u o w')
    (hr : process d.state (StreamDecoder.shownWindow d buf) mode = (st, s, w')) :
    ∃ d' buf', decoderProcess d buf mode =
        ((d'.verdict st (d.allowance buf.availOut).2 (d.allowance buf.availOut).1 o.length
          (u < buf.unread.length)).status st, d', buf') ∧
      d' = { state := s, opts := d.opts, finished := st == .streamEnd,
             totalIn := d.totalIn + UInt64.ofNat u
             totalOut := d.totalOut + UInt64.ofNat o.length } ∧
      buf'.unread = buf.unread.drop u ∧ buf'.stored = buf.stored ++ o ∧
      buf'.availOut = buf.availOut - o.length := by
  obtain ⟨hunread, hpos, hsize, hstored, hdec, hstatus⟩ := d.settle_moved hb st s hm
  refine ⟨_, _, ?_, hdec, hunread, hstored, ?_⟩
  · rw [decoderProcess, decoderCall_lifted hlift hb hfin hmode hr, hstatus]
  · rw [Buffer.availOut, hpos, hsize, Buffer.availOut, Nat.sub_add_eq]

namespace StreamDecoder

variable {c : Coding UInt8}

/-- An open handle at a position of the stream, its output counter exact under a ceiling. -/
structure Standing (k : StreamDecoder v c) (d : Decoder v) (last : Bool) (p q : ℕ) : Prop where
  at_ : k.At d.state last p q
  unfinished : d.finished = false
  noRatio : d.opts.maxRatio = 0
  counted : ∀ C status, d.opts.ceiling = some (C, status) → d.totalOut.toNat = q ∧ q ≤ C.toNat

/-- What a call answers that reads `u` bytes and writes `o`. -/
inductive Judged (k : StreamDecoder v c) (d d' : Decoder v) (p q : ℕ) (buf : Buffer)
    (mode : Flush) (u : ℕ) (o : List UInt8) : Status → Prop
  | ended (read : p + u = c.code.length) (written : q + o.length = c.text.length)
      (size : d.opts.hasExpected → d.opts.expectedSize.toNat = c.text.length) :
      Judged k d d' p q buf mode u o .streamEnd
  | missized (read : p + u = c.code.length) (written : q + o.length = c.text.length)
      (expected : d.opts.hasExpected) (size : d.opts.expectedSize.toNat ≠ c.text.length) :
      Judged k d d' p q buf mode u o .errInvalidData
  | hungry (standing : k.Idles ∨ (p + u, q + o.length) ≠ (p, q) →
        k.Standing d' (mode == .finish) (p + u) (q + o.length)) (more : mode ≠ .finish)
      (empty : buf.unread.drop u = [])
      (stall : k.Stall (p + u) → q + o.length = c.text.length ∧
        ∀ C status, d.opts.ceiling = some (C, status) → c.text.length < C.toNat) :
      Judged k d d' p q buf mode u o .needInput
  | full (standing : k.Idles ∨ (p + u, q + o.length) ≠ (p, q) →
        k.Standing d' (mode == .finish) (p + u) (q + o.length)) (noRoom : o.length = buf.availOut)
      (owing : q + o.length < c.text.length ∨
        buf.unread.drop u = [] ∧ mode ≠ .finish ∧ k.Stall (p + u)) :
      Judged k d d' p q buf mode u o .needOutput
  | capped {C : UInt64} {status : Status} (ceiling : d.opts.ceiling = some (C, status))
      (spent : q + o.length = C.toNat)
      (owing : q + o.length < c.text.length ∨
        buf.unread.drop u = [] ∧ mode ≠ .finish ∧ k.Stall (p + u)) :
      Judged k d d' p q buf mode u o status

/-- The bytes a call moves, and what the caller finds in the buffer. -/
structure Moved (c : Coding UInt8) (q : ℕ) (buf : Buffer) (u : ℕ) (o : List UInt8)
    (buf' : Buffer) : Prop where
  unread : buf'.unread = buf.unread.drop u
  dstPos : buf'.dstPos = buf.dstPos + o.length
  dstSize : buf'.dstSize = buf.dstSize
  stored : buf'.stored = buf.stored ++ o
  read_le : u ≤ buf.unread.length
  room_le : o.length ≤ buf.availOut
  writes : c.Writes q o

variable {k : StreamDecoder v c} {d : Decoder v} {last : Bool} {p q : ℕ} {buf : Buffer} {mode : Flush}

theorem Standing.counted_next (h : k.Standing d last p q) {o : List UInt8} {room : ℕ}
    (ho : o.length ≤ (d.allowance room).1) {C : UInt64} {status : Status}
    (hc : d.opts.ceiling = some (C, status)) :
    (d.totalOut + UInt64.ofNat o.length).toNat = q + o.length ∧ q + o.length ≤ C.toNat := by
  obtain ⟨hq, hle⟩ := h.counted C status hc
  have hall := d.allowance_le_ceiling hc (hq ▸ hle) room
  have hC := C.toNat_lt
  rw [UInt64.toNat_add, UInt64.toNat_ofNat', hq, Nat.mod_eq_of_lt (by omega)]
  omega

/-- A call that fails answers with an error, the codec's or the ceiling's. -/
theorem process_fails (h : k.Standing d last p q) (hb : checkBuffer buf = .ok)
    (hlast : last = true → mode = .finish) (hmode : mode ≠ .flush)
    (hx : c.Shows p buf.unread (mode = .finish)) (hf : k.Fails d.state (shownWindow d buf) mode) :
    (decoderProcess d buf mode).1.isError := by
  have hst := k.fails (w := shownWindow d buf) h.at_ hlast hmode hx hf
  rcases hr : k.process d.state (shownWindow d buf) mode with ⟨st, s, w'⟩
  rw [hr] at hst
  simp only at hst
  subst hst
  exact decoderProcess_isError k.lifted hb h.unfinished hmode hr rfl

/-- Moves within the shown window, settled: the bytes of the stream move, the ceiling is
kept, and the verdict turns on the end, the room and the ceiling. -/
theorem settle_judged (h : k.Standing d last p q) (hb : checkBuffer buf = .ok)
    (st : Status) (s : v.Dec) {w' : Window} {u : ℕ} {o : List UInt8} (hm : (shownWindow d buf).Moved u o w') (hw : c.Writes q o) :
    let r := d.settle buf (st, s, (d.shown buf).advance w')
    Moved c q buf u o r.buf ∧ r.dec.opts = d.opts ∧
      (∀ C status, d.opts.ceiling = some (C, status) → q + o.length ≤ C.toNat) ∧
      (∀ last', st ≠ .streamEnd → k.At s last' (p + u) (q + o.length) →
        k.Standing r.dec last' (p + u) (q + o.length)) ∧
      (d.opts.hasExpected → r.dec.totalOut.toNat = q + o.length) ∧
      r.status = (if st = .streamEnd ∧ d.opts.hasExpected ∧
            r.dec.totalOut ≠ d.opts.expectedSize then Verdict.refused .errInvalidData
          else if st = .streamEnd ∧ (decide (u < buf.unread.length)) ∧ d.opts.rejectTrailing then .trailing
          else if (d.allowance buf.availOut).2 ∧ st = .needOutput ∧ o.length = (d.allowance buf.availOut).1 then
            .refused d.opts.overStatus
          else if (d.allowance buf.availOut).2 ∧ (d.allowance buf.availOut).1 = 0 ∧ st ≠ .streamEnd ∧
            (decide (u < buf.unread.length)) then .refused d.opts.overStatus
          else .passed).status st := by
  intro r
  obtain ⟨hunread, hpos, hsize, hstored, hdec, hstatus⟩ := d.settle_moved hb st s hm
  obtain ⟨hu, ho, _⟩ := hm
  simp only [shownWindow] at hu ho
  have hcount (C : UInt64) (status : Status) (hc : d.opts.ceiling = some (C, status)) :=
    h.counted_next ho hc
  have hadm : r.dec.opts.Admits r.dec.totalOut := by
    rw [DecoderOpts.admits_iff]
    intro C status hc
    simp only [r, hdec] at hc ⊢
    obtain ⟨heq, hle⟩ := hcount C status hc
    rwa [heq]
  refine ⟨⟨hunread, hpos, hsize, hstored, hu, ho.trans (d.allowance_le buf.availOut), hw⟩, by simp [r, hdec],
    fun C status hc => (hcount C status hc).2, fun last' hst hat => ?_, fun hexp => ?_, ?_⟩
  · refine ⟨by simpa [r, hdec] using hat, by simp [r, hdec, hst], by simp [r, hdec, h.noRatio], ?_⟩
    simpa only [r, hdec] using hcount
  · obtain ⟨⟨C, status⟩, hc⟩ : ∃ y, d.opts.ceiling = some y := by
      unfold DecoderOpts.ceiling
      split_ifs <;> simp_all
    simpa [r, hdec] using (hcount C status hc).1
  · have hopts : r.dec.opts = d.opts := by simp [r, hdec]
    rw [show r.status = _ from hstatus,
      Decoder.verdict_of_admitted (by rw [hopts]; exact h.noRatio) hadm, hopts]

/-- A call that does not fail moves bytes of the stream in order and is judged by the
ceiling alone. -/
theorem process_judged (buf : Buffer) (mode : Flush) (h : k.Standing d last p q)
    (hb : checkBuffer buf = .ok)
    (hlast : last = true → mode = .finish) (hmode : mode ≠ .flush)
    (hx : c.Shows p buf.unread (mode = .finish)) (hf : ¬ k.Fails d.state (shownWindow d buf) mode) :
    ∃ u o, Moved c q buf u o (decoderProcess d buf mode).2.2 ∧
      (decoderProcess d buf mode).2.1.opts = d.opts ∧
      (∀ C status, d.opts.ceiling = some (C, status) → q + o.length ≤ C.toNat) ∧
      Judged k d (decoderProcess d buf mode).2.1 p q buf mode u o
        (decoderProcess d buf mode).1 := by
  have hans := k.answers (w := shownWindow d buf) h.at_ hlast hmode hx
  rcases hr : k.process d.state (shownWindow d buf) mode with ⟨st, s, w'⟩
  rw [hr] at hans
  simp only [decoderProcess, decoderCall_lifted k.lifted hb h.unfinished hmode hr]
  have hunread {u : ℕ} (hxu : buf.unread.drop u = []) : ¬ u < buf.unread.length := by
    rw [List.drop_eq_nil_iff] at hxu
    omega
  cases hans with
  | @ended _ _ u o moved writes read written =>
    obtain ⟨hmoved, hopts, hceil, _, hcount, hstatus⟩ :=
      settle_judged h hb .streamEnd s moved writes
    set r := d.settle buf (.streamEnd, s, (d.shown buf).advance w')
    refine ⟨u, o, hmoved, hopts, hceil, ?_⟩
    have hnil : buf.unread.drop u = [] := (hx.drop u).eq_nil (by omega)
    rw [hstatus]
    by_cases hexp : d.opts.hasExpected ∧ r.dec.totalOut ≠ d.opts.expectedSize
    · rw [if_pos ⟨rfl, hexp⟩]
      refine .missized read written hexp.1 fun hsize => hexp.2 (UInt64.toNat_inj.mp ?_)
      rw [hcount hexp.1, hsize, written]
    · rw [if_neg (by tauto), if_neg (by simp [hunread hnil]), if_neg (by simp), if_neg (by simp)]
      refine .ended read written fun he => ?_
      have heq : r.dec.totalOut = d.opts.expectedSize := by
        by_contra hne
        exact hexp ⟨he, hne⟩
      rw [← heq, hcount he, written]
  | @hungry _ _ u o moved writes at_ more empty stall =>
    obtain ⟨hmoved, hopts, hceil, hstand, _, hstatus⟩ :=
      settle_judged h hb .needInput s moved writes
    refine ⟨u, o, hmoved, hopts, hceil, ?_⟩
    have hnil : buf.unread.drop u = [] := by
      rw [moved.eq] at empty
      exact empty
    rw [hstatus, if_neg (by simp), if_neg (by simp), if_neg (by simp),
      if_neg (by simp [hunread hnil])]
    refine .hungry (fun h => hstand _ (by simp) (at_ h)) (by simpa using more) hnil fun hs => ?_
    obtain ⟨hroom, htext⟩ := stall hs
    refine ⟨htext, fun C status hc => ?_⟩
    -- the room left in the shown window lies under the ceiling
    rw [moved.eq] at hroom
    have hall := d.allowance_some hc buf.availOut
    obtain ⟨hq, hle⟩ := h.counted C status hc
    simp only [Window.put_room, Window.take_room, shownWindow, hall] at hroom
    omega
  | @full _ _ u o moved writes at_ noRoom owing =>
    obtain ⟨hmoved, hopts, hceil, hstand, _, hstatus⟩ :=
      settle_judged h hb .needOutput s moved writes
    refine ⟨u, o, hmoved, hopts, hceil, ?_⟩
    have hin : w'.input = buf.unread.drop u := by rw [moved.eq]; rfl
    have hall : o.length = (d.allowance buf.availOut).1 := by
      have := moved.write_le
      rw [moved.eq] at noRoom
      simp only [Window.put_room, Window.take_room, shownWindow] at noRoom this
      omega
    rw [hin] at owing
    rw [hstatus, if_neg (by simp), if_neg (by simp)]
    by_cases hcap : (d.allowance buf.availOut).2 = true
    · rw [if_pos ⟨hcap, rfl, hall⟩]
      cases hc : d.opts.ceiling with
      | none => simp [d.allowance_none hc] at hcap
      | some C =>
        obtain ⟨hq, hle⟩ := h.counted C.1 C.2 hc
        have hsome := d.allowance_some hc buf.availOut
        simp only [hsome, decide_eq_true_eq] at hcap hall
        refine .capped (C := C.1) (by simp [hc, Verdict.status, DecoderOpts.overStatus]) ?_
          (by simpa using owing)
        omega
    · rw [if_neg (by simp [hcap]), if_neg (by simp [hcap])]
      refine .full (fun h => hstand _ (by simp) (at_ h)) ?_ (by simpa using owing)
      rw [hall, d.allowance_eq_room (by simpa using hcap)]
  | failed fail => exact absurd fail hf

end StreamDecoder

end Zukomp
