import Zukomp.Core.Identity
import Zukomp.Core.Sending

/-! # Upper bounds, zu_compress_bound

A caller sizes one buffer by the bound and compresses into it in one shot, which is to need no
more room.
-/

namespace Zukomp

open Library

/-- A vtable's `bound` entry. -/
abbrev BoundEntry := ℤ → ℕ → Except Status ℕ

def compressBound (lookup : CodecId → Option CodecVtable) (bound : CodecId → Option BoundEntry)
    (codec : CodecId) (level : ℤ) (n : ℕ) : Except Status ℕ :=
  match resolve lookup codec canEncode with
  | .error st => .error st
  | .ok v =>
    if checkLevel v level ≠ .ok then .error (checkLevel v level)
    else match bound v.codec with
      | none => .error .errUnsupported
      | some f => f level n

/-- Exact: identity never grows its input. -/
def identityBound : BoundEntry := fun _ n => .ok n

/-- What a codec that fits its room answers to a call, `p` bytes into the payload and `q` into
the caller's buffer. -/
structure FitsRoom {σ : Type} (At : σ → ℕ → ℕ → Prop) (w : Window) (p q : ℕ)
    (r : Status × σ × Window) : Prop where
  moved : ∃ u o, w.Moved u o r.2.2 ∧
    (r.1.isError = false → r.1 ≠ .streamEnd → At r.2.1 (p + u) (q + o.length))
  limit : r.1 ≠ .errOutputLimit
  room : r.1 = .needOutput → r.2.2.room ≠ 0

theorem checkBuffer_ne_limit (buf : Buffer) : checkBuffer buf ≠ .errOutputLimit := by
  unfold checkBuffer
  split_ifs <;> simp

theorem oneShotTurn_error {η : Type} {process : η → Buffer → Status × η × Buffer} {h : η}
    {buf : Buffer} (herr : (process h buf).1.isError = true) :
    oneShotTurn process (h, buf) = .inr ((process h buf).1, (process h buf).2.2) := by
  unfold oneShotTurn
  rcases hr : process h buf with ⟨st, h', buf'⟩
  rw [hr] at herr
  cases st <;> first | rfl | exact absurd herr (by simp [Status.isError])

/-- Into a buffer where every call fits, no payload fails for want of room. -/
theorem oneShot_fits {v : CodecVtable} {process : v.Enc → Window → Flush → Status × v.Enc × Window}
    (hv : v.encoderProcess = onBuffer process) (At : v.Enc → ℕ → ℕ → Prop) {src : List UInt8}
    {dst : Option ℕ} {cap : ℕ}
    (hcall : ∀ s w p q, At s p q → p + w.input.length = src.length → q + w.room = cap →
      FitsRoom At w p q (process s w .finish)) {e : Encoder v} (hstart : At e.state 0 0) :
    (oneShot (fun e buf => encoderProcess e buf .finish) e src dst cap).1 ≠ .errOutputLimit := by
  unfold oneShot
  refine runLoop_keeps
    (fun y : Encoder v × Buffer => ∃ p q, At y.1.state p q ∧
      p + y.2.unread.length = src.length ∧ q + y.2.availOut = cap)
    (fun r : Status × Buffer => r.1 ≠ .errOutputLimit) ?_ (by simp)
    ⟨0, 0, hstart, by simp, by simp [Buffer.availOut, oneShotBuffer]⟩ _
  rintro ⟨e, buf⟩ ⟨p, q, hat, hp, hq⟩
  dsimp only at hat hp hq
  by_cases hb : checkBuffer buf = .ok
  swap
  · have hrefused : encoderProcess e buf .finish = (checkBuffer buf, e, buf) := if_pos hb
    rw [oneShotTurn_error (by rw [hrefused]; exact checkBuffer_isError hb), hrefused]
    exact checkBuffer_ne_limit buf
  unfold oneShotTurn
  dsimp only
  by_cases hfin : e.finished = true
  · have hover : encoderProcess e buf .finish = (if buf.srcPos < buf.srcSize then
        .errInvalidArgument else .streamEnd, e, buf) := by
      rw [encoderProcess, if_neg (by simp [hb]), if_pos hfin]
    rw [hover]
    by_cases hmore : buf.srcPos < buf.srcSize <;> simp [hmore]
  have hopen : encoderProcess e buf .finish = ((process e.state buf.window .finish).1,
      { e with state := (process e.state buf.window .finish).2.1
               finished := (process e.state buf.window .finish).1 == .streamEnd },
      buf.advance (process e.state buf.window .finish).2.2) := by
    rw [encoderProcess, if_neg (by simp [hb]), if_neg hfin, if_neg (by simp), hv, onBuffer]
  rw [hopen]
  have hfits := hcall e.state buf.window p q hat hp hq
  generalize process e.state buf.window .finish = r at hfits ⊢
  obtain ⟨st, s', w'⟩ := r
  obtain ⟨⟨u, o, hm, hat'⟩, hlimit, hroom⟩ := hfits
  dsimp only at hm hat' hlimit hroom ⊢
  obtain ⟨hunread, -, hout⟩ := Buffer.advance_moved hm
  by_cases hend : st = .streamEnd
  · rw [if_pos hend]
    simp
  rw [if_neg hend]
  by_cases hbad : st ≠ .ok ∧ st ≠ .needInput ∧ st ≠ .needOutput
  · rw [if_pos hbad]
    exact hlimit
  have hgood : st.isError = false := by cases st <;> simp_all [Status.isError]
  rw [if_neg hbad, if_neg]
  · by_cases hstill : (buf.advance w').dstPos = buf.dstPos ∧ (buf.advance w').srcPos = buf.srcPos
    · rw [if_pos hstill]
      simp
    · rw [if_neg hstill]
      have hu : u ≤ buf.unread.length := hm.read_le
      have ho : o.length ≤ buf.availOut := hm.write_le
      refine ⟨p + u, q + o.length, hat' hgood hend, ?_, ?_⟩
      · rw [hunread, List.length_drop]
        omega
      · rw [hout, hm.eq]
        change q + o.length + (buf.availOut - o.length) = cap
        omega
  · rintro ⟨rfl, hfull⟩
    refine hroom rfl ?_
    rw [← hout, Buffer.availOut, hfull, Nat.sub_self]

theorem identity_fitsRoom {n cap : ℕ} (hcap : n ≤ cap) (w : Window) {p q : ℕ} (hat : p = q)
    (hp : p + w.input.length = n) (hq : q + w.room = cap) :
    FitsRoom (fun (_ : Unit) p q => p = q) w p q (identityProcess () w .finish) := by
  have hle : w.input.length ≤ w.room := by omega
  refine ⟨⟨_, _, identityProcess_moved w .finish, fun _ _ => ?_⟩, ?_, ?_⟩
  · rw [List.length_take]
    omega
  · unfold identityProcess
    dsimp only
    split_ifs <;> simp
  · intro hst
    have hlt : w.room < w.input.length := by simpa [identityProcess] using hst
    omega

end Zukomp
