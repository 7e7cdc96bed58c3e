import Zukomp.Core.Encoding

/-! # Sending a payload through an encoder

A caller holds a payload as a list of buffers, offers each under `ZU_RUN` and the last under
`ZU_FINISH`, refills on `ZU_NEED_INPUT` and brings a fresh window on `ZU_NEED_OUTPUT`.
-/

namespace Zukomp

open Library

/-- A caller in mid-payload: the rest of its buffer, the buffers to come, the room left in its
window and what it has been given. -/
structure Send (v : CodecVtable) where
  enc : Encoder v
  unread : List UInt8
  later : List (List UInt8)
  room : ℕ
  calls : ℕ
  written : List UInt8

variable {v : CodecVtable}

namespace Send

/-- `ZU_FINISH` goes with the last buffer. -/
def mode (f : Send v) : Flush := if f.later = [] then .finish else .run

def start (e : Encoder v) (room : ℕ) : List (List UInt8) → Send v
  | [] => ⟨e, [], [], room, 0, []⟩
  | chunk :: later => ⟨e, chunk, later, room, 0, []⟩

theorem mode_ne (f : Send v) : f.mode ≠ .flush := by
  unfold mode
  split_ifs <;> simp

end Send

/-- One call of the caller, and what it does with the answer. -/
def sendTurn (ws : Windows) (f : Send v) : Send v ⊕ FeedEnd :=
  let r := encoderProcess f.enc (.ofParts f.unread f.room) f.mode
  let next (unread : List UInt8) (later : List (List UInt8)) (room : ℕ) : Send v :=
    { enc := r.2.1, unread := unread, later := later, room := room, calls := f.calls + 1
      written := f.written ++ r.2.2.stored }
  match r.1, f.later with
  | .needInput, chunk :: later => .inl (next (r.2.2.unread ++ chunk) later
      (if ws.refresh f.calls then ws.size f.calls else r.2.2.availOut))
  | .needOutput, chunk :: later =>
    if ws.refill f.calls ∧ r.2.2.unread = [] then
      .inl (next (r.2.2.unread ++ chunk) later r.2.2.availOut)
    else .inl (next r.2.2.unread (chunk :: later) (ws.size f.calls))
  | .needOutput, [] => .inl (next r.2.2.unread [] (ws.size f.calls))
  | st, _ => .inr ⟨st, f.written ++ r.2.2.stored⟩

theorem encoderProcess_moved {e : Encoder v} {buf : Buffer} {mode : Flush}
    {process : v.Enc → Window → Flush → Status × v.Enc × Window}
    (hlift : v.encoderProcess = onBuffer process) (hb : checkBuffer buf = .ok)
    (hfin : e.finished = false) (hmode : mode ≠ .flush) {st : Status} {s : v.Enc} {w' : Window}
    {u : ℕ} {o : List UInt8} (hm : buf.window.Moved u o w')
    (hr : process e.state buf.window mode = (st, s, w')) :
    ∃ buf', encoderProcess e buf mode =
        (st, { e with state := s, finished := st == .streamEnd }, buf') ∧
      buf'.unread = buf.unread.drop u ∧ buf'.stored = buf.stored ++ o := by
  obtain ⟨hunread, hstored, -⟩ := Buffer.advance_moved hm
  refine ⟨buf.advance w', ?_, hunread, hstored⟩
  rw [encoderProcess, if_neg (by simp [hb]), if_neg (by simp [hfin]), if_neg (by simp [hmode]),
    hlift, onBuffer, hr]

end Zukomp
