import Mathlib.Tactic

/-! # Loops that continue or return

A loop body maps a state either to the next state or to a result. `Returns` is
the meaning of the loop, `runLoop` executes it on a fuel. The rules below turn an
invariant and a decreasing measure into a fact about the result.
-/

namespace Zukomp.Library

variable {σ ρ : Type*}

/-- What one turn of a loop leads to: `P` of the next state, or `Q` of the result. -/
def Turn (P : σ → Prop) (Q : ρ → Prop) : σ ⊕ ρ → Prop
  | .inl s => P s
  | .inr r => Q r

@[simp] theorem turn_inl {P : σ → Prop} {Q : ρ → Prop} {s : σ} :
    Turn P Q (.inl s) ↔ P s := Iff.rfl

@[simp] theorem turn_inr {P : σ → Prop} {Q : ρ → Prop} {r : ρ} :
    Turn P Q (.inr r) ↔ Q r := Iff.rfl

theorem Turn.mono {P P' : σ → Prop} {Q Q' : ρ → Prop} {x : σ ⊕ ρ} (h : Turn P Q x)
    (hP : ∀ s, P s → P' s) (hQ : ∀ r, Q r → Q' r) : Turn P' Q' x := by
  cases x with
  | inl s => exact hP s h
  | inr r => exact hQ r h

/-- The states a loop passes through. -/
abbrev Reaches (body : σ → σ ⊕ ρ) : σ → σ → Prop :=
  Relation.ReflTransGen (fun s s' => body s = .inl s')

/-- After finitely many turns the loop returns `r`. -/
def Returns (body : σ → σ ⊕ ρ) (s : σ) (r : ρ) : Prop :=
  ∃ s', Reaches body s s' ∧ body s' = .inr r

theorem Returns.done {body : σ → σ ⊕ ρ} {s : σ} {r : ρ} (h : body s = .inr r) :
    Returns body s r := ⟨s, .refl, h⟩

theorem Returns.turn {body : σ → σ ⊕ ρ} {s s' : σ} {r : ρ} (h : body s = .inl s')
    (hr : Returns body s' r) : Returns body s r := by
  obtain ⟨t, ht, he⟩ := hr
  exact ⟨t, .head h ht, he⟩

theorem Returns.of_reaches {body : σ → σ ⊕ ρ} {s s' : σ} {r : ρ} (h : Reaches body s s')
    (hr : Returns body s' r) : Returns body s r := by
  obtain ⟨t, ht, he⟩ := hr
  exact ⟨t, h.trans ht, he⟩

/-- A loop is deterministic: from every state it passes through it returns the same. -/
theorem Returns.from_reaches {body : σ → σ ⊕ ρ} {s s' : σ} {r : ρ} (h : Returns body s r)
    (hs : Reaches body s s') : Returns body s' r := by
  induction hs with
  | refl => exact h
  | tail _ hturn ih =>
    obtain ⟨t, ht, he⟩ := ih
    rcases Relation.ReflTransGen.cases_head ht with rfl | ⟨u, hu, hut⟩
    · rw [hturn] at he
      cases he
    · rw [hturn] at hu
      cases hu
      exact ⟨t, hut, he⟩

/-- A loop returns from one state only. -/
theorem Reaches.returns_unique {body : σ → σ ⊕ ρ} {s t u : σ} {r r' : ρ} (ht : Reaches body s t)
    (hr : body t = .inr r) (hu : Reaches body s u) (hr' : body u = .inr r') : t = u := by
  have hlast {t u : σ} {r : ρ} (hr : body t = .inr r) (htu : Reaches body t u) : t = u := by
    rcases Relation.ReflTransGen.cases_head htu with rfl | ⟨v, hv, -⟩
    · rfl
    · rw [hr] at hv
      cases hv
  have hunique : Relator.RightUnique fun s s' : σ => body s = .inl s' := by
    intro s t u ht hu
    exact Sum.inl.inj (ht.symm.trans hu)
  rcases Relation.ReflTransGen.total_of_right_unique hunique ht hu with htu | hut
  · exact hlast hr htu
  · exact (hlast hr' hut).symm

theorem Returns.unique {body : σ → σ ⊕ ρ} {s : σ} {r r' : ρ} (h : Returns body s r)
    (h' : Returns body s r') : r = r' := by
  obtain ⟨t, ht, he⟩ := h
  obtain ⟨u, hu, hue⟩ := Returns.from_reaches h' ht
  rcases Relation.ReflTransGen.cases_head hu with rfl | ⟨v, hv, _⟩
  · rw [he] at hue
    exact Sum.inr.inj hue
  · rw [he] at hv
    cases hv

/-- An invariant of the body holds in every state the loop passes through. -/
theorem Reaches.invariant {body : σ → σ ⊕ ρ} (Inv : σ → Prop) {s s' : σ}
    (hbody : ∀ s s', Inv s → body s = .inl s' → Inv s') (hs : Inv s) (h : Reaches body s s') :
    Inv s' := by
  induction h with
  | refl => exact hs
  | tail _ hturn ih => exact hbody _ _ ih hturn

/-- Partial correctness: an invariant of the body, and a postcondition that every return meets. -/
theorem Returns.keeps {body : σ → σ ⊕ ρ} {s : σ} {r : ρ} (Inv : σ → Prop) {Post : ρ → Prop}
    (h : Returns body s r) (hbody : ∀ s, Inv s → Turn Inv Post (body s)) (hs : Inv s) : Post r := by
  obtain ⟨s', hreach, hend⟩ := h
  have hlast : Inv s' := hreach.invariant Inv (fun s s' hinv hturn => by
    simpa [hturn] using hbody s hinv) hs
  simpa [hend] using hbody s' hlast

/-- Total correctness: an invariant, a variant that every turn decreases, and a
postcondition that every return meets. -/
theorem returns_of_wellFounded {α : Type*} {lt : α → α → Prop} (hwf : WellFounded lt)
    {body : σ → σ ⊕ ρ} (Inv : σ → Prop) {Post : ρ → Prop} (μ : σ → α)
    (hbody : ∀ s, Inv s → Turn (fun s' => Inv s' ∧ lt (μ s') (μ s)) Post (body s)) {s : σ}
    (hs : Inv s) : ∃ r, Returns body s r ∧ Post r := by
  induction hn : μ s using hwf.induction generalizing s with
  | _ n ih =>
    have h := hbody s hs
    cases hb : body s with
    | inl s' =>
      rw [hb] at h
      obtain ⟨r, hr, hpost⟩ := ih (μ s') (hn ▸ h.2) h.1 rfl
      exact ⟨r, hr.turn hb, hpost⟩
    | inr r =>
      rw [hb] at h
      exact ⟨r, .done hb, h⟩

/-- The same with a measure. -/
theorem returns_of_measure {body : σ → σ ⊕ ρ} (Inv : σ → Prop) {Post : ρ → Prop}
    (μ : σ → ℕ)
    (hbody : ∀ s, Inv s → Turn (fun s' => Inv s' ∧ μ s' < μ s) Post (body s)) {s : σ}
    (hs : Inv s) : ∃ r, Returns body s r ∧ Post r :=
  returns_of_wellFounded Nat.lt_wfRel.wf Inv μ hbody hs

/-- Execute a loop for at most `fuel` turns; `stuck` answers when they are spent. -/
def runLoop (body : σ → σ ⊕ ρ) (stuck : σ → ρ) : ℕ → σ → ρ
  | 0, s => stuck s
  | fuel + 1, s => match body s with
    | .inl s' => runLoop body stuck fuel s'
    | .inr r => r

/-- The rule for an executed loop whose fuel exceeds the measure: it never gets stuck. -/
theorem runLoop_rule {body : σ → σ ⊕ ρ} {stuck : σ → ρ} (Inv : σ → Prop) (Post : ρ → Prop)
    (μ : σ → ℕ)
    (hbody : ∀ s, Inv s → Turn (fun s' => Inv s' ∧ μ s' < μ s) Post (body s)) {s : σ}
    (hs : Inv s) {fuel : ℕ} (hfuel : μ s < fuel) : Post (runLoop body stuck fuel s) := by
  induction fuel generalizing s with
  | zero => omega
  | succ fuel ih =>
    have h := hbody s hs
    unfold runLoop
    cases hb : body s with
    | inl s' =>
      rw [hb] at h
      exact ih h.1 (by have := h.2; omega)
    | inr r =>
      rw [hb] at h
      exact h

/-- The rule without a measure: a fact about every return, and about getting stuck. -/
theorem runLoop_keeps {body : σ → σ ⊕ ρ} {stuck : σ → ρ} (Inv : σ → Prop) (Post : ρ → Prop)
    (hbody : ∀ s, Inv s → Turn Inv Post (body s)) (hstuck : ∀ s, Inv s → Post (stuck s)) {s : σ}
    (hs : Inv s) (fuel : ℕ) : Post (runLoop body stuck fuel s) := by
  induction fuel generalizing s with
  | zero => exact hstuck s hs
  | succ fuel ih =>
    have h := hbody s hs
    unfold runLoop
    cases hb : body s with
    | inl s' =>
      rw [hb] at h
      exact ih h
    | inr r =>
      rw [hb] at h
      exact h

/-- With enough fuel the execution is the loop's own result. -/
theorem returns_runLoop {body : σ → σ ⊕ ρ} {stuck : σ → ρ} (Inv : σ → Prop) (μ : σ → ℕ)
    (hbody : ∀ s, Inv s → Turn (fun s' => Inv s' ∧ μ s' < μ s) (fun _ => True) (body s)) {s : σ}
    (hs : Inv s) {fuel : ℕ} (hfuel : μ s < fuel) :
    Returns body s (runLoop body stuck fuel s) := by
  induction fuel generalizing s with
  | zero => omega
  | succ fuel ih =>
    have h := hbody s hs
    unfold runLoop
    cases hb : body s with
    | inl s' =>
      rw [hb] at h
      exact (ih h.1 (by have := h.2; omega)).turn hb
    | inr r => exact .done hb

end Zukomp.Library
