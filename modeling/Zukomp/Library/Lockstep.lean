import Mathlib.Data.Sum.Basic
import Zukomp.Library.Loop

/-! # Machines that run in lockstep

Two machines whose answers agree and whose states stay related cannot be told apart by any
sequence of requests. Two loops in lockstep return related results.
-/

namespace Zukomp.Library

variable {σ τ ρ ρ' ι ο : Type*}

/-- What a machine answers to requests in a row. -/
def answers (step : σ → ι → ο × σ) : σ → List ι → List ο
  | _, [] => []
  | s, i :: is => (step s i).1 :: answers step (step s i).2 is

/-- A relation that every request keeps, with equal answers, relates equal sequences. -/
theorem answers_eq {step : σ → ι → ο × σ} {step' : τ → ι → ο × τ} (R : σ → τ → Prop)
    (hstep : ∀ s t i, R s t → (step s i).1 = (step' t i).1 ∧ R (step s i).2 (step' t i).2) {s : σ}
    {t : τ} (h : R s t) (is : List ι) : answers step s is = answers step' t is := by
  induction is generalizing s t with
  | nil => rfl
  | cons i is ih =>
    obtain ⟨hout, hnext⟩ := hstep s t i h
    rw [answers, answers, hout, ih hnext]

/-- Loops whose bodies go on to related states, or return related results, return related
results, and get stuck together. -/
theorem runLoop_lockstep {body : σ → σ ⊕ ρ} {body' : τ → τ ⊕ ρ'} {stuck : σ → ρ} {stuck' : τ → ρ'}
    (R : σ → τ → Prop) (Q : ρ → ρ' → Prop)
    (hbody : ∀ s t, R s t → Sum.LiftRel R Q (body s) (body' t))
    (hstuck : ∀ s t, R s t → Q (stuck s) (stuck' t)) {s : σ} {t : τ} (h : R s t) (fuel : ℕ) :
    Q (runLoop body stuck fuel s) (runLoop body' stuck' fuel t) := by
  induction fuel generalizing s t with
  | zero => exact hstuck s t h
  | succ fuel ih =>
    unfold runLoop
    have hturn := hbody s t h
    generalize body s = x at hturn ⊢
    generalize body' t = y at hturn ⊢
    cases hturn with
    | inl hnext => exact ih hnext
    | inr hret => exact hret

/-! ## Loops that may break off -/

/-- A turn of one loop beside the same turn of another: both go on, both return, or the first breaks
off where the second stands. -/
inductive Beside (R : σ → τ → Prop) (Q : ρ → ρ' → Prop) (Breaks : σ → ρ → τ → Prop) (s : σ)
    (t : τ) : σ ⊕ ρ → τ ⊕ ρ' → Prop
  | on {s' : σ} {t' : τ} (h : R s' t') : Beside R Q Breaks s t (.inl s') (.inl t')
  | ended {r : ρ} {r' : ρ'} (h : Q r r') : Beside R Q Breaks s t (.inr r) (.inr r')
  | broken {r : ρ} {y : τ ⊕ ρ'} (h : Breaks s r t) : Beside R Q Breaks s t (.inr r) y

section Beside

variable {body : σ → σ ⊕ ρ} {body' : τ → τ ⊕ ρ'} {R : σ → τ → Prop} {Q : ρ → ρ' → Prop}
  {Breaks : σ → ρ → τ → Prop} {s : σ} {t : τ} {r : ρ} {r' : ρ'}

/-- A loop that runs beside another returns what is related to the other's result, or breaks off in a
state that the other passes through. -/
theorem Returns.beside (hr : Returns body s r)
    (hbody : ∀ s t, R s t → Beside R Q Breaks s t (body s) (body' t)) (h : R s t) :
    (∃ r', Returns body' t r' ∧ Q r r') ∨
      ∃ s' t', Reaches body s s' ∧ Reaches body' t t' ∧ Breaks s' r t' := by
  obtain ⟨u, hreach, hend⟩ := hr
  induction hreach using Relation.ReflTransGen.head_induction_on generalizing t with
  | refl =>
    have hturn := hbody u t h
    rw [hend] at hturn
    generalize hbody' : body' t = y at hturn
    cases hturn with
    | ended hq => exact .inl ⟨_, .done hbody', hq⟩
    | broken hb => exact .inr ⟨u, t, .refl, .refl, hb⟩
  | @head s _ hstep _ ih =>
    have hturn := hbody s t h
    rw [hstep] at hturn
    generalize hbody' : body' t = y at hturn
    cases hturn with
    | on hnext =>
      rcases ih hnext with ⟨r', hr', hq⟩ | ⟨s', t', hs', ht', hb⟩
      · exact .inl ⟨r', hr'.turn hbody', hq⟩
      · exact .inr ⟨s', t', hs'.head hstep, ht'.head hbody', hb⟩

/-- It returns where the other does. -/
theorem Returns.beside_returns (hr : Returns body' t r')
    (hbody : ∀ s t, R s t → Beside R Q Breaks s t (body s) (body' t)) (h : R s t) :
    ∃ r, Returns body s r := by
  obtain ⟨u, hreach, hend⟩ := hr
  induction hreach using Relation.ReflTransGen.head_induction_on generalizing s with
  | refl =>
    have hturn := hbody s u h
    rw [hend] at hturn
    generalize hbody' : body s = x at hturn
    cases hturn with
    | ended hq => exact ⟨_, .done hbody'⟩
    | broken hb => exact ⟨_, .done hbody'⟩
  | @head t _ hstep _ ih =>
    have hturn := hbody s t h
    rw [hstep] at hturn
    generalize hbody' : body s = x at hturn
    cases hturn with
    | on hnext =>
      obtain ⟨r, hr⟩ := ih hnext
      exact ⟨r, hr.turn hbody'⟩
    | broken hb => exact ⟨_, .done hbody'⟩

end Beside

end Zukomp.Library
