import Zukomp.Core.Types
import Zukomp.Library.Coding

/-! # miniz's streaming interface

`mz_deflate` and `mz_inflate` are parameters of the model: an `MzStream` is one direction
of the interface, and `Inflates` is what the decoder relies on, namely that raw inflate
inverts the format whatever the split.
-/

namespace Zukomp

open Library

inductive MzFlush where
  | noFlush | syncFlush | finish
  deriving DecidableEq

inductive MzStatus where
  | ok | streamEnd | needDict | errno | streamError | dataError | memError | bufError
  | versionError | paramError
  deriving DecidableEq

/-- What a call did to `avail_in` and wrote to `next_out`. -/
structure MzStep (σ : Type) where
  status : MzStatus
  state : σ
  used : ℕ
  out : List UInt8

/-- One direction of miniz: its init at a level, its reset, and a call over the bytes and
the room it is shown. -/
structure MzStream where
  State : Type
  init : ℤ → MzStatus × State
  reset : State → MzStatus × State
  process : State → List UInt8 → ℕ → MzFlush → MzStep State
  used_le : ∀ z input room flush, (process z input room flush).used ≤ input.length
  out_le : ∀ z input room flush, (process z input room flush).out.length ≤ room
  reset_status : ∀ z, (reset z).1 = .ok ∨ (reset z).1 = .streamError

/-- How far the engine has been used since its init or reset: not called yet, called, or
called under `MZ_FINISH`, after which it takes no other flush. -/
inductive MzPhase where
  | fresh | streaming | finishing
  deriving DecidableEq

def MzPhase.Allows : MzPhase → MzFlush → Prop
  | .fresh, flush => flush ≠ .finish
  | .streaming, _ => True
  | .finishing, flush => flush = .finish

def MzPhase.after (flush : MzFlush) : MzPhase := if flush = .finish then .finishing else .streaming

theorem MzPhase.after_ne_fresh (flush : MzFlush) : MzPhase.after flush ≠ .fresh := by
  unfold after
  split_ifs <;> simp

theorem MzPhase.after_eq_finishing {flush : MzFlush} :
    MzPhase.after flush = .finishing ↔ flush = .finish := by
  unfold after
  split_ifs with h <;> simp [h]

/-- What `mz_inflate` is assumed to answer at `(p, q)` of a body. A data error means that
`MZ_FINISH` announced the end of an input too short for the body. -/
structure InflateStep (E : MzStream) (At : Progressive UInt8 → E.State → MzPhase → ℕ → ℕ → Prop)
    (c : Progressive UInt8) (p q : ℕ) (input : List UInt8) (room : ℕ)
    (flush : MzFlush) (r : MzStep E.State) : Prop where
  short : r.status = .dataError → flush = .finish ∧ input.length < c.code.length - p
  status : r.status = .ok ∨ r.status = .streamEnd ∨ r.status = .bufError ∨ r.status = .dataError
  serves : r.status ≠ .dataError → c.Serves p q input room r.used r.out
  at_ : r.status ≠ .dataError → At c r.state (.after flush) (p + r.used) (q + r.out.length)
  ended : r.status ≠ .dataError →
    (r.status = .streamEnd ↔ c.Ended (p + r.used) (q + r.out.length))

/-- Raw inflate inverts the valid bodies whatever the split. `At c z phase p q` says that
`z` has read `p` bytes of the body `c` and written `q` of its text. -/
structure Inflates (E : MzStream) (Valid : Progressive UInt8 → Prop) where
  At : Progressive UInt8 → E.State → MzPhase → ℕ → ℕ → Prop
  init : ∀ level, (E.init level).1 = .ok ∧ ∀ c, Valid c → At c (E.init level).2 .fresh 0 0
  reset : ∀ {c z phase p q}, At c z phase p q →
    (E.reset z).1 = .ok ∧ ∀ c', Valid c' → At c' (E.reset z).2 .fresh 0 0
  bounds : ∀ {c z phase p q}, At c z phase p q → p ≤ c.code.length ∧ q ≤ c.ready p
  process : ∀ {c z phase p q input flush} (room : ℕ), Valid c → At c z phase p q →
    ¬ c.Ended p q → c.Sees p input → phase.Allows flush →
      InflateStep E At c p q input room flush (E.process z input room flush)

/-! ## A reference engine for one body -/

/-- Where the reference engine stands, and whether it has failed for good. -/
structure RefInflate where
  read : ℕ
  written : ℕ
  failed : Bool
  deriving DecidableEq

/-- Inflate the body `c`: read and write all that the views allow, and fail on other bytes
or, under `MZ_FINISH`, on a view too short for the body while room remains. -/
def refInflateStep (c : Progressive UInt8) (z : RefInflate) (input : List UInt8) (room : ℕ)
    (flush : MzFlush) : MzStep RefInflate :=
  let u := (c.serve z.read z.written input room).1
  let o := (c.serve z.read z.written input room).2
  if z.failed ∨ input.take u ≠ (c.code.drop z.read).take u then
    ⟨.dataError, { z with failed := true }, 0, []⟩
  else if flush = .finish ∧ input.length < c.code.length - z.read ∧ o.length < room then
    ⟨.dataError, { z with failed := true }, u, o⟩
  else
    ⟨if c.Ended (z.read + u) (z.written + o.length) then .streamEnd
      else if u = 0 ∧ o = [] then .bufError else .ok,
      { z with read := z.read + u, written := z.written + o.length }, u, o⟩

theorem refInflateStep_short (c : Progressive UInt8) (z : RefInflate) {input : List UInt8}
    {room : ℕ} (hlen : input.length < c.code.length - z.read)
    (hroom : (c.serve z.read z.written input room).2.length < room) :
    (refInflateStep c z input room .finish).status = .dataError := by
  unfold refInflateStep
  dsimp only
  by_cases hbad : z.failed ∨ input.take (c.serve z.read z.written input room).1 ≠
      (c.code.drop z.read).take (c.serve z.read z.written input room).1
  · rw [if_pos hbad]
  · rw [if_neg hbad, if_pos ⟨rfl, hlen, hroom⟩]

def refInflate (c : Progressive UInt8) : MzStream where
  State := RefInflate
  init _ := (.ok, ⟨0, 0, false⟩)
  reset _ := (.ok, ⟨0, 0, false⟩)
  process := refInflateStep c
  used_le z input room flush := by
    unfold refInflateStep
    dsimp only
    split_ifs
    · exact Nat.zero_le _
    all_goals exact c.serve_read_le z.read z.written input room
  out_le z input room flush := by
    unfold refInflateStep
    dsimp only
    split_ifs
    · exact Nat.zero_le _
    all_goals exact c.serve_room_le z.read z.written input room
  reset_status _ := .inl rfl

/-- The reference engine inverts its body. -/
def refInflates (c : Progressive UInt8) : Inflates (refInflate c) (· = c) where
  At c' z _ p q := c' = c ∧ z = ⟨p, q, false⟩ ∧ p ≤ c.code.length ∧ q ≤ c.ready p
  init _ := ⟨rfl, fun c' h => ⟨h, rfl, Nat.zero_le _, Nat.zero_le _⟩⟩
  reset _ := ⟨rfl, fun c' h => ⟨h, rfl, Nat.zero_le _, Nat.zero_le _⟩⟩
  bounds := by
    rintro _ _ _ p q ⟨rfl, _, hp, hq⟩
    exact ⟨hp, hq⟩
  process := by
    rintro _ z phase p q input flush room rfl ⟨-, rfl, hp, hq⟩ hend hsees -
    rename_i c
    have hserves := c.serve_serves hp hq hend input room
    have hsame := hsees.take_eq (u := (c.serve p q input room).1) hserves.read_le
      (by have := hserves.within; omega)
    have hstep : (refInflate c).process ⟨p, q, false⟩ input room flush =
        refInflateStep c ⟨p, q, false⟩ input room flush := rfl
    rw [hstep, refInflateStep]
    dsimp only
    rw [if_neg (by simp [hsame])]
    split_ifs with hshort hdone hidle
    · refine ⟨fun _ => ⟨hshort.1, hshort.2.1⟩, by simp, by simp, by simp, by simp⟩
    · exact ⟨by simp, by simp, fun _ => hserves,
        fun _ => ⟨rfl, rfl, hserves.within, hserves.determined⟩, fun _ => by simp [hdone]⟩
    · exact ⟨by simp, by simp, fun _ => hserves,
        fun _ => ⟨rfl, rfl, hserves.within, hserves.determined⟩, fun _ => by simp [hdone]⟩
    · exact ⟨by simp, by simp, fun _ => hserves,
        fun _ => ⟨rfl, rfl, hserves.within, hserves.determined⟩, fun _ => by simp [hdone]⟩

end Zukomp
