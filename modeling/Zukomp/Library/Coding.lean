import Mathlib.Tactic

/-! # Codes read in pieces

A coding pairs a code with the text it stands for. A reader that has read `p` symbols
of the code and written `q` of the text is shown the next symbols in pieces; a
progressive coding also says how much of the text each prefix of the code determines.
-/

namespace Zukomp.Library

variable {α : Type*}

/-- A code and the text it stands for. -/
structure Coding (α : Type*) where
  code : List α
  text : List α

namespace Coding

/-- What a reader at `p` is shown: the next symbols of the code, all of them when this
is the last piece. -/
structure Shows (c : Coding α) (p : ℕ) (x : List α) (last : Prop) : Prop where
  next : x <+: c.code.drop p
  all : last → x = c.code.drop p

/-- What a reader at `p` may be shown of a code that other symbols follow. -/
def Sees (c : Coding α) (p : ℕ) (x : List α) : Prop :=
  x.take (c.code.length - p) <+: c.code.drop p

/-- `o` is the text from `q` on, as far as it goes. -/
def Writes (c : Coding α) (q : ℕ) (o : List α) : Prop := o <+: c.text.drop q

def Ended (c : Coding α) (p q : ℕ) : Prop := p = c.code.length ∧ q = c.text.length

instance (c : Coding α) (p q : ℕ) : Decidable (c.Ended p q) := by
  unfold Ended
  infer_instance

variable {c : Coding α} {p q : ℕ} {x o o' : List α} {last : Prop}

theorem Shows.length_le (h : c.Shows p x last) : x.length ≤ c.code.length - p := by
  simpa using h.next.length_le

theorem Shows.eq_take (h : c.Shows p x last) : x = (c.code.drop p).take x.length :=
  List.prefix_iff_eq_take.mp h.next

theorem Sees.take_eq (h : c.Sees p x) {u : ℕ} (hu : u ≤ x.length) (hp : u ≤ c.code.length - p) :
    x.take u = (c.code.drop p).take u := by
  have := List.prefix_iff_eq_take.mp h
  rw [← Nat.min_eq_left hp, ← List.take_take, this, List.take_take]
  congr 1
  simp only [List.length_take]
  omega

theorem Shows.drop (h : c.Shows p x last) (u : ℕ) : c.Shows (p + u) (x.drop u) last := by
  refine ⟨?_, fun hl => ?_⟩
  · rw [← List.drop_drop]
    obtain ⟨y, hy⟩ := h.next
    rcases le_total u x.length with hu | hu
    · exact ⟨y, by rw [← hy, List.drop_append_of_le_length hu]⟩
    · rw [List.drop_eq_nil_of_le hu]
      exact List.nil_prefix
  · rw [← List.drop_drop, ← h.all hl]

theorem Shows.gathered (h : c.Shows p x last) (hp : p ≤ c.code.length) :
    c.code.take p ++ x = c.code.take (p + x.length) ∧ p + x.length ≤ c.code.length ∧
      (last → p + x.length = c.code.length) := by
  have hlen := h.length_le
  refine ⟨?_, by omega, fun hl => ?_⟩
  · rw [List.take_add, ← h.eq_take]
  · have := congrArg List.length (h.all hl)
    rw [List.length_drop] at this
    omega

theorem Shows.eq_nil (h : c.Shows p x last) (hp : c.code.length ≤ p) : x = [] := by
  have := h.length_le
  exact List.eq_nil_of_length_eq_zero (by omega)

theorem Writes.nil : c.Writes q [] := List.nil_prefix

theorem Writes.length_le (h : c.Writes q o) : o.length ≤ c.text.length - q := by
  simpa using List.IsPrefix.length_le h

theorem Writes.eq_take (h : c.Writes q o) : o = (c.text.drop q).take o.length :=
  List.prefix_iff_eq_take.mp h

theorem Writes.append (h : c.Writes q o) (h' : c.Writes (q + o.length) o') :
    c.Writes q (o ++ o') := by
  obtain ⟨y, hy⟩ := h
  obtain ⟨z, hz⟩ := h'
  refine ⟨z, ?_⟩
  rw [← hy, List.append_assoc]
  congr 1
  rw [hz, ← List.drop_drop, ← hy]
  simp

theorem Writes.eq_text (h : c.Writes 0 o) (ho : o.length = c.text.length) : o = c.text := by
  have := h.eq_take
  rwa [List.drop_zero, ho, List.take_length] at this

end Coding

/-- A coding that can be read as it arrives: `ready p` symbols of the text are determined
by the first `p` of the code. -/
structure Progressive (α : Type*) extends Coding α where
  ready : ℕ → ℕ
  ready_mono : Monotone ready
  ready_full : ready code.length = text.length
  code_ne : code ≠ []

namespace Progressive

theorem ready_le (c : Progressive α) {p : ℕ} (hp : p ≤ c.code.length) :
    c.ready p ≤ c.text.length := c.ready_full ▸ c.ready_mono hp

/-- A reader at `(p, q)` that is shown `x` and has `room` reads `u` symbols and writes `o`.
It stalls only for want of input, or because what it holds has no room. -/
structure Serves (c : Progressive α) (p q : ℕ) (x : List α) (room u : ℕ) (o : List α) : Prop where
  read_le : u ≤ x.length
  within : p + u ≤ c.code.length
  room_le : o.length ≤ room
  writes : c.Writes q o
  determined : q + o.length ≤ c.ready (p + u)
  starved : u = 0 → o = [] → (x ≠ [] → room = 0 ∧ q < c.ready p) ∧
    (room ≠ 0 → x = [] ∧ q = c.ready p)

def serve (c : Progressive α) (p q : ℕ) (x : List α) (room : ℕ) : ℕ × List α :=
  let u := min x.length (c.code.length - p)
  (u, (c.text.drop q).take (min room (c.ready (p + u) - q)))

theorem serve_read_le (c : Progressive α) (p q : ℕ) (x : List α) (room : ℕ) :
    (c.serve p q x room).1 ≤ x.length := by
  simp [serve]

theorem serve_room_le (c : Progressive α) (p q : ℕ) (x : List α) (room : ℕ) :
    (c.serve p q x room).2.length ≤ room := by
  simp only [serve, List.length_take]
  omega

theorem serve_length_le (c : Progressive α) (p q : ℕ) (x : List α) (room : ℕ) :
    (c.serve p q x room).2.length ≤ c.ready (p + x.length) - q := by
  have hmono := c.ready_mono (show p + min x.length (c.code.length - p) ≤ p + x.length by omega)
  simp only [serve, List.length_take]
  omega

theorem serve_serves (c : Progressive α) {p q : ℕ} (hp : p ≤ c.code.length) (hq : q ≤ c.ready p)
    (hend : ¬ c.Ended p q) (x : List α) (room : ℕ) :
    c.Serves p q x room (c.serve p q x room).1 (c.serve p q x room).2 := by
  have hpu : p + min x.length (c.code.length - p) ≤ c.code.length := by omega
  have hready := c.ready_le hpu
  have hmono : c.ready p ≤ c.ready (p + min x.length (c.code.length - p)) :=
    c.ready_mono (by omega)
  have hlen : (c.serve p q x room).2.length =
      min room (c.ready (p + min x.length (c.code.length - p)) - q) := by
    simp only [serve, List.length_take, List.length_drop]
    omega
  refine ⟨by simp [serve], hpu, ?_, List.take_prefix .., ?_, fun hu ho => ?_⟩
  · rw [hlen]
    omega
  · rw [hlen]
    simp only [serve]
    omega
  · have hu' : min x.length (c.code.length - p) = 0 := hu
    rw [ho, hu', Nat.add_zero, List.length_nil] at hlen
    have hshort : x ≠ [] → p = c.code.length := by
      intro hx
      have := List.length_pos_iff.mpr hx
      omega
    have hfull : p = c.code.length → q < c.ready p := by
      intro hp
      have := c.ready_full
      rw [hp, c.ready_full] at hq
      rw [hp, c.ready_full]
      exact lt_of_le_of_ne hq fun h => hend ⟨hp, h⟩
    constructor
    · intro hx
      have := hfull (hshort hx)
      omega
    · intro hr
      have hxnil : x = [] := by
        by_contra hx
        have := hfull (hshort hx)
        omega
      exact ⟨hxnil, by omega⟩

/-- It stops reading only for text that it holds. -/
theorem serve_stops (c : Progressive α) {p q : ℕ} {x : List α} {room : ℕ}
    (h : c.Serves p q x room (c.serve p q x room).1 (c.serve p q x room).2)
    (hend : ¬ c.Ended (p + (c.serve p q x room).1) (q + (c.serve p q x room).2.length))
    (hu : (c.serve p q x room).1 < x.length) :
    q + (c.serve p q x room).2.length < c.ready (p + (c.serve p q x room).1) := by
  have hdone : p + (c.serve p q x room).1 = c.code.length := by
    have := h.within
    simp only [serve] at hu this ⊢
    omega
  refine lt_of_le_of_ne h.determined fun heq => hend ⟨hdone, ?_⟩
  rw [heq, hdone, c.ready_full]

def Holds (c : Progressive α) (p q : ℕ) : Prop := q < c.ready p ∧ q < c.text.length

theorem serve_nil (c : Progressive α) (p q room : ℕ) :
    c.serve p q [] room = (0, (c.text.drop q).take (min room (c.ready p - q))) := by
  simp [serve]

theorem serve_idle (c : Progressive α) {p q : ℕ} (h : ¬ c.Holds p q) (room : ℕ) :
    c.serve p q [] room = (0, []) := by
  have hnone : (c.text.drop q).take (min room (c.ready p - q)) = [] := by
    rw [List.take_eq_nil_iff, List.drop_eq_nil_iff]
    unfold Holds at h
    omega
  rw [serve_nil, hnone]

theorem serve_holds (c : Progressive α) {p q room : ℕ} (h : c.Holds p q) (hroom : 0 < room) :
    (c.serve p q [] room).2 ≠ [] := by
  have hlen : 0 < (c.serve p q [] room).2.length := by
    rw [serve_nil, List.length_take, List.length_drop]
    unfold Holds at h
    omega
  exact List.length_pos_iff.mp hlen

end Progressive

end Zukomp.Library
