import Zukomp.Core.Encoding
import Zukomp.Core.Identity
import Zukomp.Core.StreamEnd

/-! # The progress contract

What a caller's loop may rely on: what the two requests say about its buffer, that a codec asked
for no input gives back a bounded number of bytes, and that it fails for reasons of its own only.
A codec keeps it in every state that its calls lead to, up to the first that fails.
-/

namespace Zukomp

open Library

/-! ## One call of a codec -/

/-- From `w` to `w'` a codec that held `held` bytes comes to hold `held'`: what it wrote without
reading, it held before. A flush with nothing to read may make more. -/
def Yields (held : ℕ) (w : Window) (mode : Flush) (held' : ℕ) (w' : Window) : Prop :=
  ∃ u o, w.Moved u o w' ∧
    (u = 0 → (w.input ≠ [] ∨ mode ≠ .flush) → held' + o.length ≤ held)

/-- What a status says of the window it leaves. -/
structure Promises (mode : Flush) (st : Status) (w : Window) : Prop where
  not_ok : st ≠ .ok
  hungry : st = .needInput → w.input = [] ∧ mode ≠ .finish
  full : st = .needOutput → w.room = 0

theorem Promises.of_end {mode : Flush} {st : Status} {w : Window}
    (h : st = .streamEnd ∨ st.isError = true) : Promises mode st w := by
  rcases h with rfl | herr
  · exact ⟨by simp, by simp, by simp⟩
  · refine ⟨?_, ?_, ?_⟩ <;> rintro rfl <;> cases herr

/-- What is measured of a codec: whether it is `Sound`, a bound on what it gives back without
reading more, and the calls, by the length of their input, that are in keeping with what it has
been told of the input to come. -/
structure Gauge (σ : Type) where
  Sound : σ → Prop
  Held : σ → ℕ
  Takes : σ → ℕ → Flush → Prop

namespace Gauge

variable {σ : Type}

/-- After a call under `ZU_FINISH` the rest of its input is to come, after any other all is open. -/
def After (g : Gauge σ) (mode : Flush) (s : σ) (n : ℕ) : Prop :=
  if mode = .finish then g.Takes s n .finish else ∀ n mode, g.Takes s n mode

def untold (Sound : σ → Prop) (Held : σ → ℕ) : Gauge σ := ⟨Sound, Held, fun _ _ _ => True⟩

/-- A call that keeps the contract. -/
structure Obeys (g : Gauge σ) (s : σ) (w : Window) (mode : Flush) (r : Status × σ × Window) : Prop where
  promises : Promises mode r.1 r.2.2
  sound : r.1.isError = false → g.Sound r.2.1
  yields : r.1 = .needInput ∨ r.1 = .needOutput → Yields (g.Held s) w mode (g.Held r.2.1) r.2.2
  known : g.Takes s w.input.length mode → r.1 ≠ .errInternal
  takes : r.1 = .needInput ∨ r.1 = .needOutput → g.Takes s w.input.length mode →
    g.After mode r.2.1 r.2.2.input.length

end Gauge

section Yields

variable {held held' held'' n : ℕ} {w w' w'' : Window} {mode : Flush} {o : List UInt8}

theorem Yields.stay (h : held' ≤ held) : Yields held w mode held' w :=
  ⟨0, [], .refl w, fun _ _ => h⟩

theorem Yields.take (hpos : 0 < n) (hle : n ≤ w.input.length) :
    Yields held w mode held' (w.take n) :=
  ⟨n, [], .take hle, fun h => by omega⟩

theorem Yields.put (hroom : o.length ≤ w.room) (h : held' + o.length ≤ held) :
    Yields held w mode held' (w.put o) :=
  ⟨0, o, .put hroom, fun _ _ => h⟩

theorem Yields.trans (h : Yields held w mode held' w') (h' : Yields held' w' mode held'' w'') :
    Yields held w mode held'' w'' := by
  obtain ⟨u, o, hm, hheld⟩ := h
  obtain ⟨u', o', hm', hheld'⟩ := h'
  refine ⟨u + u', o ++ o', hm.trans hm', fun hu hin => ?_⟩
  have hu0 : u = 0 := by omega
  have hsame : w'.input = w.input := by
    obtain ⟨-, -, rfl⟩ := hm
    simp [hu0]
  have h1 := hheld hu0 hin
  have h2 := hheld' (by omega) (hsame ▸ hin)
  rw [List.length_append]
  omega

end Yields

section Obeys

variable {σ : Type} {g : Gauge σ} {s s' : σ} {w w' : Window} {mode : Flush} {st : Status}

theorem Status.isError_of_asks {st : Status} (h : st = .needInput ∨ st = .needOutput) :
    st.isError = false := by
  rcases h with rfl | rfl <;> rfl

theorem Gauge.Obeys.of_end (hst : st = .streamEnd ∨ st.isError = true)
    (hsound : st = .streamEnd → g.Sound s')
    (hknown : g.Takes s w.input.length mode → st ≠ .errInternal) :
    g.Obeys s w mode (st, s', w') := by
  have hends : ¬ (st = .needInput ∨ st = .needOutput) := by
    rintro (rfl | rfl) <;> simp [Status.isError] at hst
  refine ⟨.of_end hst, fun herr => hsound ?_, fun hask => absurd hask hends, hknown,
    fun hask => absurd hask hends⟩
  exact hst.resolve_right fun h => by simp [h] at herr

theorem Gauge.Obeys.hungry (hsound : g.Sound s') (hy : Yields (g.Held s) w mode (g.Held s') w')
    (hin : w'.input = []) (hmode : mode ≠ .finish)
    (hafter : g.Takes s w.input.length mode → g.After mode s' w'.input.length) :
    g.Obeys s w mode (.needInput, s', w') :=
  ⟨⟨by simp, fun _ => ⟨hin, hmode⟩, by simp⟩, fun _ => hsound, fun _ => hy, fun _ => by simp,
    fun _ => hafter⟩

theorem Gauge.Obeys.full (hsound : g.Sound s') (hy : Yields (g.Held s) w mode (g.Held s') w')
    (hroom : w'.room = 0) (hafter : g.Takes s w.input.length mode → g.After mode s' w'.input.length) :
    g.Obeys s w mode (.needOutput, s', w') :=
  ⟨⟨by simp, by simp, fun _ => hroom⟩, fun _ => hsound, fun _ => hy, fun _ => by simp,
    fun _ => hafter⟩

/-- From one state of a loop to a later one. -/
structure Gauge.Goes (g : Gauge σ) (mode : Flush) (s : σ) (w : Window) (s' : σ) (w' : Window) :
    Prop where
  sound : g.Sound s'
  yields : Yields (g.Held s) w mode (g.Held s') w'
  takes : g.Takes s w.input.length mode → g.Takes s' w'.input.length mode

theorem Gauge.Goes.refl (h : g.Sound s) : g.Goes mode s w s w := ⟨h, .stay le_rfl, id⟩

theorem Gauge.Goes.trans {s'' : σ} {w'' : Window} (h : g.Goes mode s w s' w')
    (h' : g.Goes mode s' w' s'' w'') : g.Goes mode s w s'' w'' :=
  ⟨h'.sound, h.yields.trans h'.yields, fun ht => h'.takes (h.takes ht)⟩

theorem Gauge.Goes.obeys (h : g.Goes mode s w s' w') {r : Status × σ × Window}
    (hr : g.Obeys s' w' mode r) : g.Obeys s w mode r :=
  ⟨hr.promises, hr.sound, fun hask => h.yields.trans (hr.yields hask),
    fun ht => hr.known (h.takes ht), fun hask ht => hr.takes hask (h.takes ht)⟩

end Obeys

/-- A direction of a codec that keeps the contract. `Kept` holds throughout its life. -/
structure Progress {σ ο : Type} (new : ο → Except Status σ)
    (process : σ → Window → Flush → Status × σ × Window)
    (reset : Option (σ → ο → Status × σ)) extends Gauge σ where
  Kept : σ → Prop
  kept_new : ∀ {o s}, new o = .ok s → Kept s ∧ Sound s ∧ ∀ n mode, Takes s n mode
  kept_process : ∀ {s} w mode, Kept s → Kept (process s w mode).2.1
  kept_reset : ∀ {f s} o, reset = some f → Kept s → Kept (f s o).2 ∧
    ((f s o).1 = .ok → Sound (f s o).2 ∧ ∀ n mode, Takes (f s o).2 n mode)
  obeys : ∀ {s} w mode, Kept s → Sound s → toGauge.Obeys s w mode (process s w mode)

structure EncoderProgress (v : CodecVtable) where
  process : v.Enc → Window → Flush → Status × v.Enc × Window
  lifted : v.encoderProcess = onBuffer process
  progress : Progress v.encoderNew process v.encoderReset

structure DecoderProgress (v : CodecVtable) where
  process : v.Dec → Window → Flush → Status × v.Dec × Window
  lifted : v.decoderProcess = onBuffer process
  progress : Progress v.decoderNew process v.decoderReset

/-! ## One call of a handle -/

/-- What a status says of the buffer it leaves. -/
structure Buffer.Promises (mode : Flush) (st : Status) (buf : Buffer) : Prop where
  not_ok : st ≠ .ok
  hungry : st = .needInput → buf.srcPos = buf.srcSize ∧ mode ≠ .finish
  full : st = .needOutput → buf.dstPos = buf.dstSize

theorem Buffer.Promises.of_end {mode : Flush} {st : Status} {buf : Buffer}
    (h : st = .streamEnd ∨ st.isError = true) : Buffer.Promises mode st buf := by
  rcases h with rfl | herr
  · exact ⟨by simp, by simp, by simp⟩
  · refine ⟨?_, ?_, ?_⟩ <;> rintro rfl <;> cases herr

/-- A call of either driver that keeps the contract. -/
structure Drives {η : Type} (g : Gauge η) (h : η) (buf : Buffer) (mode : Flush)
    (r : Status × η × Buffer) : Prop where
  promises : r.2.2.Promises mode r.1
  sound : r.1.isError = false → g.Sound r.2.1
  yields : r.1 = .needInput ∨ r.1 = .needOutput → ∃ u o, u ≤ buf.unread.length ∧
    r.2.2.unread = buf.unread.drop u ∧ r.2.2.dstPos = buf.dstPos + o ∧ r.2.2.dstSize = buf.dstSize ∧
    (u = 0 → (buf.unread ≠ [] ∨ mode ≠ .flush) → g.Held r.2.1 + o ≤ g.Held h)
  known : g.Takes h buf.unread.length mode → r.1 ≠ .errInternal
  takes : r.1 = .needInput ∨ r.1 = .needOutput → g.Takes h buf.unread.length mode →
    g.After mode r.2.1 r.2.2.unread.length

theorem Drives.of_end {η : Type} {g : Gauge η} {h : η} (hsound : g.Sound h) {buf : Buffer}
    {mode : Flush} {st : Status} (hst : st = .streamEnd ∨ st.isError = true)
    (hne : st ≠ .errInternal) : Drives g h buf mode (st, h, buf) := by
  have hends : ¬ (st = .needInput ∨ st = .needOutput) := by
    rintro (rfl | rfl) <;> simp [Status.isError] at hst
  exact ⟨.of_end hst, fun _ => hsound, fun hask => absurd hask hends, fun _ => hne,
    fun hask => absurd hask hends⟩

variable {v : CodecVtable}

theorem checkBuffer_ne_internal (buf : Buffer) : checkBuffer buf ≠ .errInternal := by
  unfold checkBuffer
  split_ifs <;> simp

/-- The gauge of the codec, of the handle around it. -/
def Gauge.ofEncoder (g : Gauge v.Enc) : Gauge (Encoder v) :=
  ⟨fun e => g.Sound e.state, fun e => g.Held e.state, fun e => g.Takes e.state⟩

def Gauge.ofDecoder (g : Gauge v.Dec) : Gauge (Decoder v) :=
  ⟨fun d => g.Sound d.state, fun d => g.Held d.state, fun d => g.Takes d.state⟩

/-- The encoder's driver passes the codec's answer on. -/
theorem EncoderProgress.drives (k : EncoderProgress v) {e : Encoder v} (hkept : k.progress.Kept e.state)
    (h : k.progress.Sound e.state) (buf : Buffer) (mode : Flush) :
    Drives k.progress.ofEncoder e buf mode (encoderProcess e buf mode) := by
  have hhandle : k.progress.ofEncoder.Sound e := h
  unfold encoderProcess
  by_cases hbuf : checkBuffer buf ≠ .ok
  · rw [if_pos hbuf]
    exact .of_end hhandle (.inr (checkBuffer_isError hbuf)) (checkBuffer_ne_internal buf)
  rw [if_neg hbuf]
  have hbuf : checkBuffer buf = .ok := not_not.mp hbuf
  by_cases hfin : e.finished = true
  · rw [if_pos hfin]
    split_ifs
    · exact .of_end hhandle (.inr rfl) (by simp)
    · exact .of_end hhandle (.inl rfl) (by simp)
  rw [if_neg hfin]
  by_cases hmode : mode = .flush ∧ ¬ v.can canFlush
  · rw [if_pos hmode]
    exact .of_end hhandle (.inr rfl) (by simp)
  have hcall : v.encoderProcess e.state buf mode = ((k.process e.state buf.window mode).1,
      (k.process e.state buf.window mode).2.1,
      buf.advance (k.process e.state buf.window mode).2.2) := by
    rw [k.lifted]
    rfl
  rw [if_neg hmode, hcall]
  obtain ⟨hpromises, hsound, hyields, hknown, htakes⟩ := k.progress.obeys buf.window mode hkept h
  generalize k.process e.state buf.window mode = r at hpromises hsound hyields hknown htakes ⊢
  obtain ⟨st, s, w⟩ := r
  dsimp only at hpromises hsound hyields hknown htakes ⊢
  refine ⟨⟨hpromises.not_ok, fun hst => ?_, fun hst => ?_⟩, hsound, fun hask => ?_, hknown,
    fun hask ht => ?_⟩
  · obtain ⟨hw, hmode⟩ := hpromises.hungry hst
    exact ⟨Buffer.advance_spent hbuf hw, hmode⟩
  · have hst : st = .needOutput := hst
    obtain ⟨u, o, hm, -⟩ := hyields (.inr hst)
    have hroom := (Buffer.advance_moved hm).2.2
    rw [hpromises.full hst, Buffer.availOut] at hroom
    have hwrite : o.length ≤ buf.availOut := hm.write_le
    have hpos : (buf.advance w).dstPos = buf.dstPos + o.length := by
      rw [hm.eq]
      rfl
    obtain ⟨-, hle⟩ := checkBuffer_ok hbuf
    rw [Buffer.availOut] at hwrite
    change buf.dstSize - (buf.advance w).dstPos = 0 at hroom
    change (buf.advance w).dstPos = buf.dstSize
    omega
  · obtain ⟨u, o, hm, hheld⟩ := hyields hask
    refine ⟨u, o.length, hm.read_le, (Buffer.advance_moved hm).1, ?_, rfl, hheld⟩
    rw [hm.eq]
    rfl
  · obtain ⟨u, o, hm, -⟩ := hyields hask
    have hleft : (buf.advance w).unread = w.input := by
      rw [(Buffer.advance_moved hm).1, hm.eq]
      rfl
    change k.progress.ofEncoder.After mode _ (buf.advance w).unread.length
    rw [hleft]
    exact htakes hask ht

theorem Decoder.verdict_ne_internal {d : Decoder v} {st : Status} (hst : st ≠ .errInternal)
    {capped unread : Bool} {allowed produced : ℕ} :
    (d.verdict st capped allowed produced unread).status st ≠ .errInternal := by
  have hover : d.opts.overStatus ≠ .errInternal := by
    unfold DecoderOpts.overStatus DecoderOpts.ceiling
    split_ifs <;> simp
  unfold verdict
  split_ifs <;> first | exact hst | exact hover | simp [Verdict.status]

theorem Decoder.verdict_full {d : Decoder v} {capped unread : Bool} {n : ℕ}
    (h : d.verdict .needOutput capped n n unread = .passed) : capped = false := by
  unfold verdict at h
  rw [if_neg (by simp), if_neg (by simp)] at h
  by_contra hcapped
  rw [if_pos ⟨by simpa using hcapped, rfl, rfl⟩] at h
  cases h

/-- The decoder's driver passes the codec's answer on, or refuses. -/
theorem DecoderProgress.drives (k : DecoderProgress v) {d : Decoder v} (hkept : k.progress.Kept d.state)
    (h : k.progress.Sound d.state) (buf : Buffer) (mode : Flush) :
    Drives k.progress.ofDecoder d buf mode (decoderProcess d buf mode) := by
  have hhandle : k.progress.ofDecoder.Sound d := h
  unfold decoderProcess decoderCall
  by_cases hbuf : checkBuffer buf ≠ .ok
  · rw [if_pos hbuf]
    exact .of_end hhandle (.inr (checkBuffer_isError hbuf)) (checkBuffer_ne_internal buf)
  rw [if_neg hbuf]
  have hbuf : checkBuffer buf = .ok := not_not.mp hbuf
  by_cases hfin : d.finished = true
  · rw [if_pos hfin]
    dsimp only
    split_ifs
    · exact .of_end hhandle (.inr rfl) (by simp)
    · exact .of_end hhandle (.inl rfl) (by simp)
  rw [if_neg hfin]
  by_cases hmode : mode = .flush ∧ ¬ v.can canFlush
  · rw [if_pos hmode]
    exact .of_end hhandle (.inr rfl) (by simp)
  have hcall : v.decoderProcess d.state (d.shown buf) mode =
      ((k.process d.state (d.shown buf).window mode).1,
        (k.process d.state (d.shown buf).window mode).2.1,
        (d.shown buf).advance (k.process d.state (d.shown buf).window mode).2.2) := by
    rw [k.lifted]
    rfl
  rw [if_neg hmode, hcall]
  have hwindow : (d.shown buf).window = ⟨buf.unread, (d.allowance buf.availOut).1, []⟩ := by
    simp [Buffer.window]
  obtain ⟨hpromises, hsound, hyields, hknown, htakes⟩ :=
    k.progress.obeys (d.shown buf).window mode hkept h
  generalize k.process d.state (d.shown buf).window mode = r at hpromises hsound hyields hknown htakes ⊢
  obtain ⟨st, s, w⟩ := r
  dsimp only at hpromises hsound hyields hknown htakes ⊢
  rw [hwindow] at hknown htakes
  obtain ⟨capped, allowed, produced, unread, -, hjudged, -⟩ :=
    d.settle_judged buf (st, s, (d.shown buf).advance w)
  dsimp only at hjudged
  -- an answer that is no error is the codec's own
  have hpassed (herr : (d.settle buf (st, s, (d.shown buf).advance w)).status.isError = false) :
      (d.settle buf (st, s, (d.shown buf).advance w)).status = st := by
    rw [Decoder.verdict_of_not_error (hjudged ▸ herr)] at hjudged
    exact hjudged
  have hasked {h : (d.settle buf (st, s, (d.shown buf).advance w)).status = .needInput ∨
      (d.settle buf (st, s, (d.shown buf).advance w)).status = .needOutput} :
      st = .needInput ∨ st = .needOutput := hpassed (Status.isError_of_asks h) ▸ h
  refine ⟨⟨fun hst => ?_, fun hst => ?_, fun hst => ?_⟩, fun herr => ?_, fun hask => ?_,
    fun ht => ?_, fun hask ht => ?_⟩
  · dsimp only at hst
    exact hpromises.not_ok ((hpassed (by rw [hst]; rfl)).symm.trans hst)
  · dsimp only at hst ⊢
    obtain ⟨hw, hmode⟩ := hpromises.hungry ((hpassed (by rw [hst]; rfl)).symm.trans hst)
    refine ⟨?_, hmode⟩
    have hspent : ((d.shown buf).advance w).srcPos = buf.srcSize := by
      have hlen := Buffer.unread_length_of_ok hbuf
      obtain ⟨hle, -⟩ := checkBuffer_ok hbuf
      change (d.shown buf).srcPos + ((d.shown buf).unread.length - w.input.length) = buf.srcSize
      rw [hw, List.length_nil, d.shown_unread, d.shown_srcPos]
      omega
    unfold Decoder.settle
    dsimp only
    split_ifs
    · exact hspent.trans (d.shown_srcSize buf).symm
    · exact hspent.trans (d.shown_srcSize buf).symm
  · dsimp only at hst ⊢
    have hsame := hpassed (by rw [hst]; rfl)
    have hst : st = .needOutput := hsame.symm.trans hst
    obtain ⟨u, o, hm, -⟩ := hyields (.inr hst)
    rw [hwindow] at hm
    obtain ⟨-, hpos, hsize, -, -, hstatus⟩ := d.settle_moved hbuf st s hm
    have hfull : o.length = (d.allowance buf.availOut).1 := by
      have hroom := hpromises.full hst
      have hwrite : o.length ≤ (d.allowance buf.availOut).1 := hm.write_le
      rw [hm.eq] at hroom
      change (d.allowance buf.availOut).1 - o.length = 0 at hroom
      omega
    rw [hfull, hst] at hstatus
    have hverdict := Decoder.verdict_of_not_error
      (by rw [← hstatus, ← hst, hsame, hst]; rfl)
    have hcapped := Decoder.verdict_full hverdict
    have hroom := d.allowance_eq_room hcapped
    obtain ⟨-, hle⟩ := checkBuffer_ok hbuf
    rw [hpos, hsize, hfull, hroom, Buffer.availOut]
    omega
  · dsimp only at herr
    exact hsound (hpassed herr ▸ herr)
  · dsimp only at hask ⊢
    obtain ⟨u, o, hm, hheld⟩ := hyields (hasked (h := hask))
    rw [hwindow] at hm hheld
    obtain ⟨hunread, hpos, hsize, -, -, -⟩ := d.settle_moved hbuf st s hm
    exact ⟨u, o.length, hm.read_le, hunread, hpos, hsize, hheld⟩
  · dsimp only
    rw [hjudged]
    exact Decoder.verdict_ne_internal (hknown ht)
  · dsimp only at hask ⊢
    obtain ⟨u, o, hm, -⟩ := hyields (hasked (h := hask))
    rw [hwindow] at hm
    obtain ⟨hunread, -⟩ := d.settle_moved hbuf st s hm
    have hleft : (d.settle buf (st, s, (d.shown buf).advance w)).buf.unread = w.input := by
      rw [hunread, hm.eq]
      rfl
    rw [hleft]
    exact htakes (hasked (h := hask)) ht

/-! ## Every state a handle can be in -/

/-- What any calls make of a handle `h₀`, and whether it is one that no call has failed since its
last reset. -/
inductive Handled {η ο : Type} (process : η → Buffer → Flush → Status × η × Buffer)
    (reset : η → Option ο → Status × η) (h₀ : η) : Bool → η → Prop
  | new : Handled process reset h₀ true h₀
  | process {sound : Bool} {h : η} (hh : Handled process reset h₀ sound h) (buf : Buffer)
    (mode : Flush) : Handled process reset h₀ (sound && !(process h buf mode).1.isError)
      (process h buf mode).2.1
  | reset {sound : Bool} {h : η} (hh : Handled process reset h₀ sound h) (o : Option ο) :
    Handled process reset h₀ ((reset h o).1 == .ok) (reset h o).2

abbrev EncoderHandled (e₀ : Encoder v) : Bool → Encoder v → Prop :=
  Handled encoderProcess encoderReset e₀

abbrev DecoderHandled (d₀ : Decoder v) : Bool → Decoder v → Prop :=
  Handled decoderProcess decoderReset d₀

/-- What holds throughout a handle's life, and of one that no call has failed. -/
theorem Handled.invariant {η ο : Type} {process : η → Buffer → Flush → Status × η × Buffer}
    {reset : η → Option ο → Status × η} {h₀ h : η} {sound : Bool} (Kept Sound : η → Prop)
    (hprocess : ∀ h buf mode, Kept h → Kept (process h buf mode).2.1 ∧
      (Sound h → (process h buf mode).1.isError = false → Sound (process h buf mode).2.1))
    (hreset : ∀ h o, Kept h → Kept (reset h o).2 ∧ ((reset h o).1 = .ok → Sound (reset h o).2))
    (h₀_kept : Kept h₀) (h₀_sound : Sound h₀) (hh : Handled process reset h₀ sound h) :
    Kept h ∧ (sound = true → Sound h) := by
  induction hh with
  | new => exact ⟨h₀_kept, fun _ => h₀_sound⟩
  | @process sound h _ buf mode ih =>
    obtain ⟨hkept, hsound⟩ := hprocess h buf mode ih.1
    refine ⟨hkept, fun hok => ?_⟩
    rw [Bool.and_eq_true, Bool.not_eq_true'] at hok
    exact hsound (ih.2 hok.1) hok.2
  | @reset sound h _ o ih =>
    obtain ⟨hkept, hsound⟩ := hreset h o ih.1
    exact ⟨hkept, fun hok => hsound (beq_iff_eq.mp hok)⟩

namespace EncoderProgress

variable {k : EncoderProgress v}

theorem kept_process (e : Encoder v) (buf : Buffer) (mode : Flush) (h : k.progress.Kept e.state) :
    k.progress.Kept (encoderProcess e buf mode).2.1.state := by
  unfold encoderProcess
  split_ifs
  · exact h
  · exact h
  · exact h
  · exact h
  · rw [k.lifted]
    exact k.progress.kept_process _ _ h

theorem kept_reset (e : Encoder v) (o : Option EncoderOpts) (h : k.progress.Kept e.state) :
    k.progress.Kept (encoderReset e o).2.state ∧
      ((encoderReset e o).1 = .ok → k.progress.Sound (encoderReset e o).2.state) := by
  rw [encoderReset]
  dsimp only
  by_cases hsize : (o.getD e.opts).structSize < encoderOptsSize
  · rw [if_pos hsize]
    exact ⟨h, by simp⟩
  rw [if_neg hsize]
  by_cases hcodec : (copyEncoderOpts (o.getD e.opts)).codec ≠ e.opts.codec
  · rw [if_pos hcodec]
    exact ⟨h, by simp⟩
  rw [if_neg hcodec]
  by_cases hlevel : checkLevel v (copyEncoderOpts (o.getD e.opts)).level ≠ .ok
  · rw [if_pos hlevel]
    exact ⟨h, fun hok => absurd hok hlevel⟩
  rw [if_neg hlevel]
  split
  · exact ⟨h, by simp⟩
  · next reset hreset =>
    obtain ⟨hkept, hsound⟩ := k.progress.kept_reset (copyEncoderOpts (o.getD e.opts)) hreset h
    split
    · next heq =>
      rw [heq] at hkept hsound
      exact ⟨hkept, fun _ => (hsound rfl).1⟩
    · next hne heq =>
      rw [heq] at hkept hsound
      exact ⟨hkept, fun hok => absurd hok hne⟩

/-- In every state that no failed call has led to the codec is sound. -/
theorem reached (k : EncoderProgress v) {lookup : CodecId → Option CodecVtable} {opts : EncoderOpts}
    {e₀ e : Encoder v} {sound : Bool} (hnew : encoderNew lookup opts = .ok ⟨v, e₀⟩)
    (h : EncoderHandled e₀ sound e) :
    k.progress.Kept e.state ∧ (sound = true → k.progress.Sound e.state) := by
  obtain ⟨-, hstate, -⟩ := encoderNew_ok hnew
  obtain ⟨hkept, hsound, -⟩ := k.progress.kept_new hstate
  exact h.invariant (fun e => k.progress.Kept e.state) (fun e => k.progress.Sound e.state)
    (fun e buf mode he => ⟨kept_process e buf mode he,
      fun hs => (k.drives he hs buf mode).sound⟩)
    (fun e o he => kept_reset e o he) hkept hsound

end EncoderProgress

namespace DecoderProgress

variable {k : DecoderProgress v}

theorem kept_process (d : Decoder v) (buf : Buffer) (mode : Flush) (h : k.progress.Kept d.state) :
    k.progress.Kept (decoderProcess d buf mode).2.1.state := by
  unfold decoderProcess
  rcases decoderCall_cases d buf mode with ⟨hd, -⟩ | ⟨-, -, -, hcall⟩
  · dsimp only
    rw [hd]
    exact h
  · dsimp only
    rw [hcall, k.lifted]
    exact k.progress.kept_process _ mode h

theorem kept_reset (d : Decoder v) (o : Option DecoderOpts) (h : k.progress.Kept d.state) :
    k.progress.Kept (decoderReset d o).2.state ∧
      ((decoderReset d o).1 = .ok → k.progress.Sound (decoderReset d o).2.state) := by
  rw [decoderReset]
  dsimp only
  by_cases hopts : checkDecOpts (o.getD d.opts) ≠ .ok
  · rw [if_pos hopts]
    exact ⟨h, by simp⟩
  rw [if_neg hopts]
  by_cases hcodec : (copyDecoderOpts (o.getD d.opts)).codec ≠ d.opts.codec
  · rw [if_pos hcodec]
    exact ⟨h, by simp⟩
  rw [if_neg hcodec]
  split
  · exact ⟨h, by simp⟩
  · next reset hreset =>
    obtain ⟨hkept, hsound⟩ := k.progress.kept_reset (copyDecoderOpts (o.getD d.opts)) hreset h
    split
    · next heq =>
      rw [heq] at hkept hsound
      exact ⟨hkept, fun _ => (hsound rfl).1⟩
    · next hne heq =>
      rw [heq] at hkept hsound
      exact ⟨hkept, fun hok => absurd hok hne⟩

theorem reached (k : DecoderProgress v) {lookup : CodecId → Option CodecVtable} {opts : DecoderOpts}
    {d₀ d : Decoder v} {sound : Bool} (hnew : decoderNew lookup opts = .ok ⟨v, d₀⟩)
    (h : DecoderHandled d₀ sound d) :
    k.progress.Kept d.state ∧ (sound = true → k.progress.Sound d.state) := by
  obtain ⟨-, hstate⟩ := decoderNew_ok hnew
  obtain ⟨hkept, hsound, -⟩ := k.progress.kept_new hstate
  exact h.invariant (fun d => k.progress.Kept d.state) (fun d => k.progress.Sound d.state)
    (fun d buf mode hd => ⟨kept_process d buf mode hd,
      fun hs => (k.drives hd hs buf mode).sound⟩)
    (fun d o hd => kept_reset d o hd) hkept hsound

end DecoderProgress

/-! ## The identity codec -/

end Zukomp
