import Zukomp.Core.OneShot

/-! # Encoder sessions

An encoding follows one encoder handle through any calls of `zu_encoder_process` and records
the bytes its stream has taken and given.
-/

namespace Zukomp

open Library

variable {v : CodecVtable}

structure Encoding (v : CodecVtable) where
  enc : Encoder v
  taken : List UInt8
  given : List UInt8

theorem encoderNew_ok {lookup : CodecId → Option CodecVtable} {opts : EncoderOpts}
    {e : Encoder v} (h : encoderNew lookup opts = .ok ⟨v, e⟩) :
    e.opts = copyEncoderOpts opts ∧ v.encoderNew e.opts = .ok e.state ∧ e.finished = false := by
  unfold encoderNew at h
  split at h
  · cases h
  · split at h
    · cases h
    · split at h
      · cases h
      · split at h
        · cases h
        · next hstate =>
          cases h
          exact ⟨rfl, hstate, rfl⟩

theorem encoderProcess_calls {process : v.Enc → Window → Flush → Status × v.Enc × Window}
    (hv : v.encoderProcess = onBuffer process) {e : Encoder v} {buf : Buffer} {mode : Flush}
    (hbuf : checkBuffer buf = .ok) (hfin : e.finished = false)
    (hmode : ¬ (mode = .flush ∧ ¬ v.can canFlush)) :
    encoderProcess e buf mode = ((process e.state buf.window mode).1,
      { e with state := (process e.state buf.window mode).2.1
               finished := (process e.state buf.window mode).1 == .streamEnd },
      buf.advance (process e.state buf.window mode).2.2) := by
  rw [encoderProcess, if_neg (by simp [hbuf]), if_neg (by simp [hfin]), if_neg hmode, hv]
  rfl

/-- A call the driver answers itself changes nothing; any other is the codec's. -/
theorem encoderProcess_cases {process : v.Enc → Window → Flush → Status × v.Enc × Window}
    (hv : v.encoderProcess = onBuffer process) (e : Encoder v) (buf : Buffer) (mode : Flush) :
    ((encoderProcess e buf mode).2 = (e, buf) ∧
      ((encoderProcess e buf mode).1 = .streamEnd → e.finished = true)) ∨
    (e.finished = false ∧ encoderProcess e buf mode =
      ((process e.state buf.window mode).1,
        { e with state := (process e.state buf.window mode).2.1
                 finished := (process e.state buf.window mode).1 == .streamEnd },
        buf.advance (process e.state buf.window mode).2.2)) := by
  by_cases hbuf : checkBuffer buf = .ok
  · by_cases hfin : e.finished = true
    · rw [encoderProcess, if_neg (by simp [hbuf]), if_pos hfin]
      exact .inl ⟨rfl, fun _ => hfin⟩
    · by_cases hmode : mode = .flush ∧ ¬ v.can canFlush
      · rw [encoderProcess, if_neg (by simp [hbuf]), if_neg hfin, if_pos hmode]
        exact .inl ⟨rfl, by simp⟩
      · have hopen : e.finished = false := by simpa using hfin
        exact .inr ⟨hopen, encoderProcess_calls hv hbuf hopen hmode⟩
  · rw [encoderProcess, if_pos hbuf]
    refine .inl ⟨rfl, fun h => ?_⟩
    have herr := checkBuffer_isError hbuf
    rw [show checkBuffer buf = .streamEnd from h] at herr
    cases herr

/-- A stream end is never answered over a bad buffer, or past the end with input left. -/
theorem encoderProcess_end {e : Encoder v} {buf : Buffer} {mode : Flush}
    (h : (encoderProcess e buf mode).1 = .streamEnd) :
    checkBuffer buf = .ok ∧ (e.finished = true → buf.srcPos = buf.srcSize) := by
  have hbuf : checkBuffer buf = .ok := by
    by_contra hbad
    rw [encoderProcess, if_pos hbad] at h
    have herr := checkBuffer_isError hbad
    rw [show checkBuffer buf = .streamEnd from h] at herr
    cases herr
  refine ⟨hbuf, fun hfin => ?_⟩
  rw [encoderProcess, if_neg (by simp [hbuf]), if_pos hfin] at h
  obtain ⟨hle, -⟩ := checkBuffer_ok hbuf
  by_contra hne
  rw [if_pos (by omega)] at h
  cases h

namespace Encoding

def start (e : Encoder v) : Encoding v := ⟨e, [], []⟩

def next (s : Encoding v) (buf : Buffer) (mode : Flush) : Encoding v :=
  let r := encoderProcess s.enc buf mode
  { enc := r.2.1
    taken := s.taken ++ buf.unread.take (r.2.2.srcPos - buf.srcPos)
    given := s.given ++ r.2.2.stored.drop buf.stored.length }

/-- The encodings that any calls lead to. -/
inductive Run (e : Encoder v) : Encoding v → Prop
  | new : Run e (start e)
  | call {s : Encoding v} (h : Run e s) (buf : Buffer) (mode : Flush) : Run e (s.next buf mode)

theorem Run.invariant (Inv : Encoding v → Prop) {e : Encoder v} (hnew : Inv (start e))
    (hcall : ∀ s buf mode, Inv s → Inv (s.next buf mode)) {s : Encoding v} (h : Run e s) :
    Inv s := by
  induction h with
  | new => exact hnew
  | call _ buf mode ih => exact hcall _ buf mode ih

/-- The encodings that calls which each meet `P` lead to. -/
inductive RunBy (P : Encoder v → Buffer → Flush → Prop) (e : Encoder v) : Encoding v → Prop
  | new : RunBy P e (start e)
  | call {s : Encoding v} (h : RunBy P e s) (buf : Buffer) (mode : Flush) (meets : P s.enc buf mode) :
    RunBy P e (s.next buf mode)

/-- From the first `ZU_FINISH` on, `some x`: the caller brings what is left of `x` and nothing
else. -/
inductive Supplied (e : Encoder v) : Option (List UInt8) → Encoding v → Prop
  | new : Supplied e none (start e)
  | more {s : Encoding v} (h : Supplied e none s) (buf : Buffer) {mode : Flush}
    (hmode : mode ≠ .finish) : Supplied e none (s.next buf mode)
  | finish {s : Encoding v} (h : Supplied e none s) (buf : Buffer) :
    Supplied e (some (s.taken ++ buf.unread)) (s.next buf .finish)
  | rest {s : Encoding v} {x : List UInt8} (h : Supplied e (some x) s) {buf : Buffer}
    (hbuf : s.taken ++ buf.unread = x) (mode : Flush) : Supplied e (some x) (s.next buf mode)

/-- Such calls, each of which meets `P`. -/
inductive SuppliedBy (P : Encoder v → Buffer → Flush → Prop) (e : Encoder v) :
    Option (List UInt8) → Encoding v → Prop
  | new : SuppliedBy P e none (start e)
  | more {s : Encoding v} (h : SuppliedBy P e none s) (buf : Buffer) {mode : Flush}
    (hmode : mode ≠ .finish) (meets : P s.enc buf mode) : SuppliedBy P e none (s.next buf mode)
  | finish {s : Encoding v} (h : SuppliedBy P e none s) (buf : Buffer)
    (meets : P s.enc buf .finish) :
    SuppliedBy P e (some (s.taken ++ buf.unread)) (s.next buf .finish)
  | rest {s : Encoding v} {x : List UInt8} (h : SuppliedBy P e (some x) s) {buf : Buffer}
    (hbuf : s.taken ++ buf.unread = x) (mode : Flush) (meets : P s.enc buf mode) :
    SuppliedBy P e (some x) (s.next buf mode)

theorem SuppliedBy.mono {P Q : Encoder v → Buffer → Flush → Prop} {e : Encoder v}
    {x : Option (List UInt8)} {s : Encoding v} (hle : ∀ e buf mode, P e buf mode → Q e buf mode)
    (h : SuppliedBy P e x s) : SuppliedBy Q e x s := by
  induction h with
  | new => exact .new
  | more _ buf hmode meets ih => exact .more ih buf hmode (hle _ _ _ meets)
  | finish _ buf meets ih => exact .finish ih buf (hle _ _ _ meets)
  | rest _ hbuf mode meets ih => exact .rest ih hbuf mode (hle _ _ _ meets)

/-- By such calls, the last under `ZU_FINISH`, the encoder can be offered the payload `x` and give
the code `b`, to the stream's end. -/
def EncodesBy (P : Encoder v → Buffer → Flush → Prop) (e : Encoder v) (x b : List UInt8) : Prop :=
  ∃ offered s buf, SuppliedBy P e offered s ∧ (∀ y, offered = some y → s.taken ++ buf.unread = y) ∧
    P s.enc buf .finish ∧ (encoderProcess s.enc buf .finish).1 = .streamEnd ∧
      x = s.taken ++ buf.unread ∧ b = (s.next buf .finish).given

theorem SuppliedBy.runBy {P : Encoder v → Buffer → Flush → Prop} {e : Encoder v}
    {x : Option (List UInt8)} {s : Encoding v} (h : SuppliedBy P e x s) : RunBy P e s := by
  induction h with
  | new => exact .new
  | more _ buf _ meets ih => exact .call ih buf _ meets
  | finish _ buf meets ih => exact .call ih buf _ meets
  | rest _ _ mode meets ih => exact .call ih _ mode meets

theorem Supplied.run {e : Encoder v} {x : Option (List UInt8)} {s : Encoding v}
    (h : Supplied e x s) : Run e s := by
  induction h with
  | new => exact .new
  | more _ buf _ ih => exact .call ih buf _
  | finish _ buf ih => exact .call ih buf _
  | rest _ _ mode ih => exact .call ih _ mode

theorem next_finished {process : v.Enc → Window → Flush → Status × v.Enc × Window}
    (hv : v.encoderProcess = onBuffer process) {s : Encoding v} {buf : Buffer} {mode : Flush}
    (h : (encoderProcess s.enc buf mode).1 = .streamEnd) : (s.next buf mode).enc.finished = true := by
  rcases encoderProcess_cases hv s.enc buf mode with ⟨hsame, hend⟩ | ⟨-, hcall⟩
  · rw [next, hsame]
    exact hend h
  · rw [next, hcall]
    rw [hcall] at h
    exact beq_iff_eq.mpr h

theorem next_calls {process : v.Enc → Window → Flush → Status × v.Enc × Window} {s : Encoding v}
    {buf : Buffer} {mode : Flush} {st : Status} {state : v.Enc} {u : ℕ} {o : List UInt8}
    (hcall : encoderProcess s.enc buf mode = ((process s.enc.state buf.window mode).1,
      { s.enc with state := (process s.enc.state buf.window mode).2.1
                   finished := (process s.enc.state buf.window mode).1 == .streamEnd },
      buf.advance (process s.enc.state buf.window mode).2.2))
    (hr : process s.enc.state buf.window mode = (st, state, (buf.window.take u).put o)) :
    s.next buf mode = { enc := { s.enc with state := state, finished := st == .streamEnd }
                        taken := s.taken ++ buf.unread.take u, given := s.given ++ o } ∧
      (encoderProcess s.enc buf mode).1 = st := by
  rw [hr] at hcall
  rw [next, hcall]
  simp only [Buffer.advance, Buffer.window, Window.put_input, Window.take_input,
    Window.put_written, Window.take_written, List.nil_append, List.length_drop,
    List.drop_left, and_true, mk.injEq, true_and]
  rw [Nat.add_sub_cancel_left, List.append_right_inj]
  exact List.take_eq_take_iff.mpr (by omega)

theorem next_of_bad {s : Encoding v} {buf : Buffer} (h : checkBuffer buf ≠ .ok) (mode : Flush) :
    s.next buf mode = s := by
  rw [next, encoderProcess, if_pos h]
  simp

theorem next_cases {process : v.Enc → Window → Flush → Status × v.Enc × Window}
    (hv : v.encoderProcess = onBuffer process) (s : Encoding v) (buf : Buffer) (mode : Flush) :
    (s.next buf mode = s ∧
      ((encoderProcess s.enc buf mode).1 = .streamEnd → s.enc.finished = true)) ∨
    (s.enc.finished = false ∧ ∀ st state u o,
      process s.enc.state buf.window mode = (st, state, (buf.window.take u).put o) →
      s.next buf mode = { enc := { s.enc with state := state, finished := st == .streamEnd }
                          taken := s.taken ++ buf.unread.take u, given := s.given ++ o } ∧
        (encoderProcess s.enc buf mode).1 = st) := by
  rcases encoderProcess_cases hv s.enc buf mode with ⟨hsame, hend⟩ | ⟨hfin, hcall⟩
  · refine .inl ⟨?_, hend⟩
    rw [next, hsame]
    simp
  · exact .inr ⟨hfin, fun st state u o hr => next_calls hcall hr⟩

/-- A call that takes all that its buffer shows leaves the cursor at the buffer's end. -/
theorem next_spent {process : v.Enc → Window → Flush → Status × v.Enc × Window}
    (hv : v.encoderProcess = onBuffer process) {s : Encoding v} {buf : Buffer} {mode : Flush}
    (hbuf : checkBuffer buf = .ok) (h : (s.next buf mode).taken = s.taken ++ buf.unread) :
    (encoderProcess s.enc buf mode).2.2.srcPos = buf.srcSize := by
  have hlen := Buffer.unread_length_of_ok hbuf
  obtain ⟨hle, -⟩ := checkBuffer_ok hbuf
  have hall := List.append_cancel_left (show _ ++ _ = _ from h)
  rw [List.take_eq_self_iff] at hall
  have hwithin : buf.srcPos ≤ (encoderProcess s.enc buf mode).2.2.srcPos ∧
      (encoderProcess s.enc buf mode).2.2.srcPos ≤ buf.srcSize := by
    rcases encoderProcess_cases hv s.enc buf mode with ⟨hsame, -⟩ | ⟨-, hcall⟩
    · rw [hsame]
      exact ⟨le_rfl, hle⟩
    · rw [hcall]
      change buf.srcPos ≤ buf.srcPos + (buf.unread.length - _) ∧
        buf.srcPos + (buf.unread.length - _) ≤ _
      omega
  omega

/-- The encoder can take the payload `x` and give the code `b`, to the stream's end. -/
def Encodes (e : Encoder v) (x b : List UInt8) : Prop :=
  ∃ s buf mode, Run e s ∧ (encoderProcess s.enc buf mode).1 = .streamEnd ∧
    (s.next buf mode).taken = x ∧ (s.next buf mode).given = b

/-- Over one buffer, what a codec that moves its window has taken and given is what the
buffer shows. -/
theorem next_buffer {process : v.Enc → Window → Flush → Status × v.Enc × Window}
    (hv : v.encoderProcess = onBuffer process) {s : Encoding v}
    (hmoves : ∀ w mode, ∃ u o, (process s.enc.state w mode).2.2 = (w.take u).put o)
    {src : List UInt8} {buf : Buffer} (hgiven : s.given = buf.stored)
    (htaken : s.taken ++ buf.unread = src) (mode : Flush) :
    (s.next buf mode).given = (encoderProcess s.enc buf mode).2.2.stored ∧
      (s.next buf mode).taken ++ (encoderProcess s.enc buf mode).2.2.unread = src := by
  rcases encoderProcess_cases hv s.enc buf mode with ⟨hsame, -⟩ | ⟨-, hcall⟩
  · have hbuf : (encoderProcess s.enc buf mode).2.2 = buf := congrArg Prod.snd hsame
    simp only [next, hbuf, Nat.sub_self, List.take_zero, List.append_nil, List.drop_length]
    exact ⟨hgiven, htaken⟩
  · obtain ⟨u, o, hmove⟩ := hmoves buf.window mode
    have hbuf : (encoderProcess s.enc buf mode).2.2 = buf.advance ((buf.window.take u).put o) := by
      rw [hcall, ← hmove]
    have hstored : (buf.advance ((buf.window.take u).put o)).stored = buf.stored ++ o := by
      simp [Buffer.advance, Buffer.window]
    have hunread : (buf.advance ((buf.window.take u).put o)).unread = buf.unread.drop
        ((buf.advance ((buf.window.take u).put o)).srcPos - buf.srcPos) := by
      simp [Buffer.unread, Buffer.advance, List.drop_drop]
    simp only [next, hbuf]
    rw [hstored, hunread, hgiven, List.drop_left, List.append_assoc, List.take_append_drop]
    exact ⟨rfl, htaken⟩

/-- A one-shot compression that succeeds is such an encoding, by calls over one buffer. -/
theorem oneShot_encodes {process : v.Enc → Window → Flush → Status × v.Enc × Window}
    (hv : v.encoderProcess = onBuffer process) {e : Encoder v}
    (hmoves : ∀ s, Run e s → ∀ w mode, ∃ u o, (process s.enc.state w mode).2.2 = (w.take u).put o)
    {src : List UInt8} {dst : Option ℕ} {cap : ℕ} {buf : Buffer}
    (h : oneShot (fun e buf => encoderProcess e buf .finish) e src dst cap = (.ok, buf)) :
    ∃ x, Encodes e x buf.stored ∧ x ++ buf.unread = src := by
  have hpost : (oneShot (fun e buf => encoderProcess e buf .finish) e src dst cap).1 = .ok →
      ∃ x, Encodes e x (oneShot (fun e buf => encoderProcess e buf .finish) e src dst cap).2.stored ∧
        x ++ (oneShot (fun e buf => encoderProcess e buf .finish) e src dst cap).2.unread = src := by
    unfold oneShot
    refine runLoop_keeps
      (fun y : Encoder v × Buffer => ∃ s, Run e s ∧ s.enc = y.1 ∧ s.given = y.2.stored ∧
        s.taken ++ y.2.unread = src)
      (fun r : Status × Buffer => r.1 = .ok →
        ∃ x, Encodes e x r.2.stored ∧ x ++ r.2.unread = src) ?_ (by simp)
      ⟨start e, .new, rfl, rfl, by simp [start]⟩ _
    rintro ⟨_, buf⟩ ⟨s, hrun, rfl, hgiven, htaken⟩
    obtain ⟨hgiven', htaken'⟩ := next_buffer hv (hmoves s hrun) hgiven htaken .finish
    rcases oneShotTurn_cases (fun e buf => encoderProcess e buf .finish) s.enc buf with
      hgo | ⟨st, hret, hend⟩
    · rw [hgo]
      exact ⟨_, .call hrun buf .finish, rfl, hgiven', htaken'⟩
    · rw [hret]
      exact fun hok => ⟨_, ⟨s, buf, .finish, hrun, hend hok, rfl, hgiven'⟩, htaken'⟩
  rw [h] at hpost
  exact hpost rfl

end Encoding

end Zukomp
