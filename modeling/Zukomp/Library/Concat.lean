import Zukomp.Library.Coding

/-! # Codings one after another

A reader of several codes in a row is inside one of them: what it is shown of the whole
is what it sees of that one, and what it writes there is text of the whole.
-/

namespace Zukomp.Library

variable {α : Type*}

namespace Coding

def concat (cs : List (Coding α)) : Coding α :=
  ⟨(cs.map Coding.code).flatten, (cs.map Coding.text).flatten⟩

@[simp] theorem concat_nil_code : (concat ([] : List (Coding α))).code = [] := rfl
@[simp] theorem concat_nil_text : (concat ([] : List (Coding α))).text = [] := rfl

@[simp] theorem concat_cons_code (c : Coding α) (cs : List (Coding α)) :
    (concat (c :: cs)).code = c.code ++ (concat cs).code := rfl

@[simp] theorem concat_cons_text (c : Coding α) (cs : List (Coding α)) :
    (concat (c :: cs)).text = c.text ++ (concat cs).text := rfl

@[simp] theorem concat_append_code (cs ds : List (Coding α)) :
    (concat (cs ++ ds)).code = (concat cs).code ++ (concat ds).code := by simp [concat]

@[simp] theorem concat_append_text (cs ds : List (Coding α)) :
    (concat (cs ++ ds)).text = (concat cs).text ++ (concat ds).text := by simp [concat]

/-- The code with other symbols after it. -/
def followed (c : Coding α) (tail : List α) : Coding α := ⟨c.code ++ tail, c.text⟩

@[simp] theorem followed_code (c : Coding α) (tail : List α) :
    (c.followed tail).code = c.code ++ tail := rfl

@[simp] theorem followed_text (c : Coding α) (tail : List α) : (c.followed tail).text = c.text := rfl

@[simp] theorem followed_nil (c : Coding α) : c.followed [] = c := by simp [followed]

variable {pre post : List (Coding α)} {c : Coding α} {p q : ℕ} {x o tail : List α} {last : Prop}

theorem followed_drop_code (hp : p ≤ c.code.length) :
    ((concat (pre ++ c :: post)).followed tail).code.drop ((concat pre).code.length + p) =
      c.code.drop p ++ ((concat post).followed tail).code := by
  rw [followed_code, concat_append_code, concat_cons_code, List.append_assoc, ← List.drop_drop,
    List.drop_left, List.append_assoc, List.drop_append_of_le_length hp, followed_code]

theorem concat_drop_text (hq : q ≤ c.text.length) :
    (concat (pre ++ c :: post)).text.drop ((concat pre).text.length + q) =
      c.text.drop q ++ (concat post).text := by
  rw [concat_append_text, concat_cons_text, ← List.drop_drop, List.drop_left,
    List.drop_append_of_le_length hq]

theorem Writes.concat (h : c.Writes q o) (hq : q ≤ c.text.length) :
    ((concat (pre ++ c :: post)).followed tail).Writes ((Coding.concat pre).text.length + q) o := by
  rw [Writes, followed_text, concat_drop_text hq]
  exact h.trans (List.prefix_append ..)

theorem Shows.sees
    (h : ((concat (pre ++ c :: post)).followed tail).Shows ((concat pre).code.length + p) x last)
    (hp : p ≤ c.code.length) : c.Sees p x := by
  have htake := h.next.take (c.code.length - p)
  rwa [followed_drop_code hp, List.take_left' (by simp)] at htake

end Coding

end Zukomp.Library
