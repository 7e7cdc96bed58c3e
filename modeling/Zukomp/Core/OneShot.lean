import Zukomp.Core.Feeding

/-! # One-shot calls, zu_int_one_shot

One `process` call in a loop under `ZU_FINISH` against the caller's two fixed buffers.
A decoder that keeps the contract answers in the first turn.
-/

namespace Zukomp

open Library

/-- One turn of the loop, around either direction's `process`. -/
def oneShotTurn {η : Type} (process : η → Buffer → Status × η × Buffer) (s : η × Buffer) :
    (η × Buffer) ⊕ (Status × Buffer) :=
  match process s.1 s.2 with
  | (st, h, buf) =>
    if st = .streamEnd then .inr (.ok, buf)
    else if st ≠ .ok ∧ st ≠ .needInput ∧ st ≠ .needOutput then .inr (st, buf)
    -- the caller's buffer is full and the stream is not finished
    else if st = .needOutput ∧ buf.dstPos = buf.dstSize then .inr (.errOutputLimit, buf)
    else if buf.dstPos = s.2.dstPos ∧ buf.srcPos = s.2.srcPos then .inr (.errInternal, buf)
    else .inl (h, buf)

/-- A turn goes on from where the call left off, or returns; it succeeds at a stream end only. -/
theorem oneShotTurn_cases {η : Type} (process : η → Buffer → Status × η × Buffer) (h : η)
    (buf : Buffer) : oneShotTurn process (h, buf) = .inl (process h buf).2 ∨
      ∃ st, oneShotTurn process (h, buf) = .inr (st, (process h buf).2.2) ∧
        (st = .ok → (process h buf).1 = .streamEnd) := by
  unfold oneShotTurn
  dsimp only
  split_ifs with hend hbad
  · exact .inr ⟨.ok, rfl, fun _ => hend⟩
  · exact .inr ⟨_, rfl, fun hok => absurd hok hbad.1⟩
  · exact .inr ⟨_, rfl, by simp⟩
  · exact .inr ⟨_, rfl, by simp⟩
  · exact .inl rfl

def oneShotBuffer (src : List UInt8) (dst : Option ℕ) (cap : ℕ) : Buffer where
  src := some src
  srcSize := src.length
  srcPos := 0
  dst := dst
  dstSize := cap
  dstPos := 0
  stored := []
  readable := length_of_some src

/-- Every turn that goes on moves a cursor of the buffer, which bounds their number. -/
def oneShot {η : Type} (process : η → Buffer → Status × η × Buffer) (h : η) (src : List UInt8)
    (dst : Option ℕ) (cap : ℕ) : Status × Buffer :=
  runLoop (oneShotTurn process) (fun s => (.errInternal, s.2)) (src.length + cap + 1)
    (h, oneShotBuffer src dst cap)

def compressOne (lookup : CodecId → Option CodecVtable) (opts : EncoderOpts) (src : List UInt8)
    (dst : Option ℕ) (cap : ℕ) : Status × Buffer :=
  if dst.isNone ∧ cap ≠ 0 then (.errInvalidArgument, oneShotBuffer src dst cap)
  else match encoderNew lookup opts with
    | .error st => (st, oneShotBuffer src dst cap)
    | .ok ⟨_, e⟩ => oneShot (fun e buf => encoderProcess e buf .finish) e src dst cap

def decompressOne (lookup : CodecId → Option CodecVtable) (opts : DecoderOpts)
    (src : List UInt8) (dst : Option ℕ) (cap : ℕ) : Status × Buffer :=
  if dst.isNone ∧ cap ≠ 0 then (.errInvalidArgument, oneShotBuffer src dst cap)
  else match decoderNew lookup opts with
    | .error st => (st, oneShotBuffer src dst cap)
    | .ok ⟨_, d⟩ => oneShot (fun d buf => decoderProcess d buf .finish) d src dst cap

@[simp] theorem unread_oneShotBuffer (src : List UInt8) (dst : Option ℕ) (cap : ℕ) :
    (oneShotBuffer src dst cap).unread = src := by simp [Buffer.unread, oneShotBuffer]

theorem checkBuffer_oneShot {dst : Option ℕ} {cap : ℕ} (h : dst.isNone → cap = 0)
    (src : List UInt8) : checkBuffer (oneShotBuffer src dst cap) = .ok := by
  have h3 : ¬ (dst.isNone = true ∧ cap ≠ 0) := fun hn => hn.2 (h hn.1)
  simp [checkBuffer, oneShotBuffer] at h3 ⊢
  exact h3

/-- What the loop reports for a call that it does not repeat. -/
def oneShotStatus (st : Status) : Status :=
  if st = .streamEnd then .ok else if st = .needOutput then .errOutputLimit else st

theorem oneShot_answer {η : Type} {process : η → Buffer → Status × η × Buffer} {h h' : η}
    {src : List UInt8} {dst : Option ℕ} {cap : ℕ} {st : Status} {buf : Buffer}
    (hr : process h (oneShotBuffer src dst cap) = (st, h', buf))
    (hst : st = .streamEnd ∨ st.isError ∨ st = .needOutput ∧ buf.dstPos = buf.dstSize) :
    oneShot process h src dst cap = (oneShotStatus st, buf) := by
  have hturn : oneShotTurn process (h, oneShotBuffer src dst cap) =
      .inr (oneShotStatus st, buf) := by
    simp only [oneShotTurn, hr, oneShotStatus]
    rcases hst with rfl | herr | ⟨rfl, hfull⟩
    · rfl
    · cases st <;> first | rfl | cases herr
    · simp [hfull]
  simp [oneShot, runLoop, hturn]

theorem oneShot_isError {η : Type} {process : η → Buffer → Status × η × Buffer} {h : η}
    {src : List UInt8} {dst : Option ℕ} {cap : ℕ}
    (herr : (process h (oneShotBuffer src dst cap)).1.isError) :
    (oneShot process h src dst cap).1.isError := by
  rcases hr : process h (oneShotBuffer src dst cap) with ⟨st, h', buf⟩
  rw [hr] at herr
  rw [oneShot_answer hr (.inr (.inl herr))]
  cases st <;> first | exact herr | cases herr

variable {v : CodecVtable} {c : Coding UInt8} {d : Decoder v} {dst : Option ℕ} {cap : ℕ}

theorem decompressOne_eq {lookup : CodecId → Option CodecVtable} {opts : DecoderOpts}
    (hnew : decoderNew lookup opts = .ok ⟨v, d⟩) (hdst : dst.isNone → cap = 0) (src : List UInt8) :
    decompressOne lookup opts src dst cap =
      oneShot (fun d buf => decoderProcess d buf .finish) d src dst cap := by
  rw [decompressOne, if_neg (fun h => h.2 (hdst h.1)), hnew]

/-- How a one-shot decode of a whole stream ends, and what it has written. -/
inductive OneShotEnd (c : Coding UInt8) (opts : DecoderOpts) (cap : ℕ) (o : List UInt8) :
    Status → Prop
  | ended (text : o = c.text) (size : opts.hasExpected → opts.expectedSize.toNat = c.text.length) :
      OneShotEnd c opts cap o .ok
  | missized (text : o = c.text) (expected : opts.hasExpected)
      (size : opts.expectedSize.toNat ≠ c.text.length) : OneShotEnd c opts cap o .errInvalidData
  | full (noRoom : o.length = cap) (owing : cap < c.text.length) :
      OneShotEnd c opts cap o .errOutputLimit
  | capped {C : UInt64} {status : Status} (ceiling : opts.ceiling = some (C, status))
      (spent : o.length = C.toNat) (owing : C.toNat < c.text.length) :
      OneShotEnd c opts cap o status

theorem StreamDecoder.oneShot_fails (k : StreamDecoder v c) (h : k.Standing d false 0 0)
    (hdst : dst.isNone → cap = 0)
    (hf : k.Fails d.state (shownWindow d (oneShotBuffer c.code dst cap)) .finish) :
    (oneShot (fun d buf => decoderProcess d buf .finish) d c.code dst cap).1.isError := by
  have herr := process_fails h (checkBuffer_oneShot hdst c.code) (by simp) (by simp)
    ⟨by simp, by simp⟩ hf
  exact oneShot_isError herr

/-- The one-shot decode of a whole stream by a decoder that keeps the contract. -/
theorem StreamDecoder.oneShot_end (k : StreamDecoder v c) (h : k.Standing d false 0 0)
    (hdst : dst.isNone → cap = 0)
    (hf : ¬ k.Fails d.state (shownWindow d (oneShotBuffer c.code dst cap)) .finish) :
    ∃ st buf, oneShot (fun d buf => decoderProcess d buf .finish) d c.code dst cap = (st, buf) ∧
      buf.dstPos = buf.stored.length ∧ buf.stored.length ≤ cap ∧ c.Writes 0 buf.stored ∧
      OneShotEnd c d.opts cap buf.stored st := by
  have hb := checkBuffer_oneShot hdst c.code
  obtain ⟨u, o, hm, _, hceil, hj⟩ := process_judged _ .finish h hb (by simp) (by simp)
    ⟨by simp, by simp⟩ hf
  rcases hr : decoderProcess d (oneShotBuffer c.code dst cap) .finish with ⟨st, d', buf⟩
  rw [hr] at hm hj
  have hpos : buf.dstPos = o.length := by simpa [oneShotBuffer] using hm.dstPos
  have hsize : buf.dstSize = cap := by simpa [oneShotBuffer] using hm.dstSize
  have hstored : buf.stored = o := by simpa [oneShotBuffer] using hm.stored
  have hle : o.length ≤ cap := by simpa [Buffer.availOut, oneShotBuffer] using hm.room_le
  have hanswer (hst : st = .streamEnd ∨ st.isError ∨ st = .needOutput ∧ buf.dstPos = buf.dstSize)
      (hend : OneShotEnd c d.opts cap o (oneShotStatus st)) :
      ∃ st buf, oneShot (fun d buf => decoderProcess d buf .finish) d c.code dst cap = (st, buf) ∧
        buf.dstPos = buf.stored.length ∧ buf.stored.length ≤ cap ∧ c.Writes 0 buf.stored ∧
        OneShotEnd c d.opts cap buf.stored st := by
    refine ⟨_, buf, oneShot_answer hr hst, ?_, ?_, ?_, ?_⟩ <;> rw [hstored]
    · exact hpos
    · exact hle
    · exact hm.writes
    · exact hend
  cases hj with
  | ended read written size =>
    exact hanswer (.inl rfl) (.ended (hm.writes.eq_text (by omega)) size)
  | missized read written expected size =>
    exact hanswer (.inr (.inl rfl)) (.missized (hm.writes.eq_text (by omega)) expected size)
  | hungry _ more _ _ => exact absurd rfl more
  | full _ noRoom owing =>
    have hfull : o.length = cap := by simpa [Buffer.availOut, oneShotBuffer] using noRoom
    refine hanswer (.inr (.inr ⟨rfl, by omega⟩)) (.full hfull ?_)
    rcases owing with hlt | ⟨_, hmore, _⟩
    · omega
    · exact absurd rfl hmore
  | capped ceiling spent owing =>
    have hlt : 0 + o.length < c.text.length := by
      rcases owing with hlt | ⟨_, hmore, _⟩
      · exact hlt
      · exact absurd rfl hmore
    have hend : OneShotEnd c d.opts cap o st := .capped ceiling (by omega) (by omega)
    rcases DecoderOpts.ceiling_status ceiling with rfl | rfl <;>
      exact hanswer (.inr (.inl rfl)) hend

end Zukomp
