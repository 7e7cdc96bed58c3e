import Zukomp.Core.Encoding
import Zukomp.Core.Ending

/-! # What a whole-buffer compression writes

A source that is handed over in one slice is compressed by calls under `ZU_FINISH` alone, each with
what is left of it. Where the loop ends at the stream's end, the sink holds an encoding of the source.
-/

namespace Zukomp

open Library

variable {v : CodecVtable} {r : RunOpts} {e : Encoder v}

/-- The calls of such a run, of a source of `n` bytes. -/
structure OneSlice (n : ℕ) (e : Encoder v) (buf : Buffer) (mode : Flush) : Prop where
  finish : mode = .finish
  within : buf.unread.length ≤ n
  goes : (encoderProcess e buf mode).1.isError = false

namespace Whole

/-- A run between two turns, as an encoding: the calls so far have given what is in the sink, and
what is left of the source is still to come. -/
structure Encoded (e : Encoder v) (r : RunOpts) (x : Whole (Encoder v)) (s : Encoding v) : Prop where
  supplied : ∃ offered, Encoding.SuppliedBy (OneSlice r.src.length) e offered s ∧
    ∀ y, offered = some y → y = r.src
  handle : s.enc = x.handle
  given : s.given = x.out.used
  rest : s.taken ++ (x.slice ++ x.later) = r.src
  spent : x.slice = [] ∨ x.later = []

theorem encoded_start (e : Encoder v) (r : RunOpts) :
    Encoded e r (.start e r .empty) (.start e) where
  supplied := ⟨none, .new, nofun⟩
  handle := rfl
  given := rfl
  rest := rfl
  spent := .inl rfl

variable {x : Whole (Encoder v)} {s : Encoding v}

theorem Encoded.refill (h : Encoded e r x s) (hin : r.src.length ≤ r.inChunk) :
    Encoded e r (x.refill r) s ∧ (x.refill r).later = [] := by
  have hlater : x.later.length ≤ r.inChunk := by
    have := congrArg List.length h.rest
    simp only [List.length_append] at this
    omega
  have hspent : (x.refill r).later = [] := by
    unfold Whole.refill
    split_ifs with hslice
    · exact List.drop_eq_nil_iff.mpr hlater
    · exact h.spent.resolve_left hslice
  refine ⟨⟨h.supplied, ?_, ?_, ?_, .inr hspent⟩, hspent⟩
  · rw [refill_handle]
    exact h.handle
  · rw [refill_out]
    exact h.given
  · have hrest := h.rest
    unfold Whole.refill
    split_ifs with hslice
    · rw [hslice, List.nil_append] at hrest
      change s.taken ++ (x.later.take r.inChunk ++ x.later.drop r.inChunk) = r.src
      rwa [List.take_append_drop]
    · exact hrest

section Turns

variable {process : v.Enc → Window → Flush → Status × v.Enc × Window}

theorem Encoded.next (hv : v.encoderProcess = onBuffer process)
    (hmoves : ∀ s w mode, ∃ u o, (process s w mode).2.2 = (w.take u).put o)
    (h : Encoded e r x s) (hlater : x.later = []) (mode : Flush) :
    let c := encoderProcess x.handle (.ofParts x.slice r.outChunk) mode
    (s.next (.ofParts x.slice r.outChunk) mode).enc = c.2.1 ∧
      (s.next (.ofParts x.slice r.outChunk) mode).given = x.out.used ++ c.2.2.stored ∧
      (s.next (.ofParts x.slice r.outChunk) mode).taken ++ c.2.2.unread = r.src := by
  have hrest : s.taken ++ (Buffer.ofParts x.slice r.outChunk).unread = r.src := by
    rw [Buffer.unread_ofParts, ← h.rest, hlater, List.append_nil]
  -- the bytes given before are not in this window
  let empty : Encoding v := { s with given := [] }
  have hgiven : empty.given = (Buffer.ofParts x.slice r.outChunk).stored := rfl
  have hleft := Encoding.next_buffer hv (hmoves empty.enc.state) hgiven hrest mode
  rw [← h.handle, ← h.given]
  exact ⟨rfl, rfl, hleft.2⟩

/-- A turn calls the encoder over the slice that is left, and ends the encoding where it ends. -/
theorem wholeTurn_encoded (hv : v.encoderProcess = onBuffer process)
    (hmoves : ∀ s w mode, ∃ u o, (process s w mode).2.2 = (w.take u).put o)
    (hin : r.src.length ≤ r.inChunk) (h : Encoded e r x s) :
    Turn (fun x' => ∃ s', Encoded e r x' s')
      (fun e' => e'.1 = .streamEnd →
        Encoding.EncodesBy (OneSlice r.src.length) e r.src e'.2.used)
      (wholeTurn encoderProcess r x) := by
  obtain ⟨hy, hlater⟩ := h.refill hin
  cases hreserve : reserve x.out r.outChunk with
  | error st =>
    rw [wholeTurn_error _ hreserve]
    intro hend
    rw [show st = .streamEnd from hend] at hreserve
    exact absurd (reserve_error hreserve) (by simp)
  | ok out =>
    rw [wholeTurn_ok _ hreserve]
    have hused : out.used = (x.refill r).out.used := by
      rw [refill_out]
      exact reserve_used hreserve
    have hhandle : (x.refill r).handle = x.handle := refill_handle r x
    rw [← hhandle]
    generalize x.refill r = y at *
    have hmode : y.mode r = .finish := if_pos hlater
    rw [hmode]
    obtain ⟨henc, hgiven, hleft⟩ := hy.next hv hmoves hlater .finish
    obtain ⟨offered, hsup, hoffer⟩ := hy.supplied
    have hall : s.taken ++ (Buffer.ofParts y.slice r.outChunk).unread = r.src := by
      rw [Buffer.unread_ofParts, ← hy.rest, hlater, List.append_nil]
    have hmeets (hgoes : (encoderProcess y.handle (.ofParts y.slice r.outChunk) .finish).1.isError =
        false) : OneSlice r.src.length s.enc (.ofParts y.slice r.outChunk) .finish := by
      have := congrArg List.length hall
      rw [List.length_append] at this
      exact ⟨rfl, by omega, hy.handle ▸ hgoes⟩
    unfold Whole.judge
    dsimp only
    by_cases hend : (encoderProcess y.handle (.ofParts y.slice r.outChunk) .finish).1 = .streamEnd
    · rw [if_pos hend]
      intro _
      refine ⟨offered, s, .ofParts y.slice r.outChunk, hsup, fun z hz => ?_,
        hmeets (by rw [hend]; rfl), hy.handle ▸ hend, hall.symm, ?_⟩
      · rw [hoffer z hz, hall]
      · rw [hgiven, ← hused]
        rfl
    rw [if_neg hend]
    split_ifs with hbad hstuck
    · exact fun h => absurd h hend
    · exact fun h => by cases h
    · have hgoes : (encoderProcess y.handle (.ofParts y.slice r.outChunk) .finish).1.isError =
          false := by
        cases hst : (encoderProcess y.handle (.ofParts y.slice r.outChunk) .finish).1 <;>
          simp_all [Status.isError]
      have hsup' : Encoding.SuppliedBy (OneSlice r.src.length) e (some r.src)
          (s.next (.ofParts y.slice r.outChunk) .finish) := by
        cases offered with
        | none => exact hall ▸ hsup.finish _ (hmeets hgoes)
        | some z =>
          obtain rfl := hoffer z rfl
          exact hsup.rest hall .finish (hmeets hgoes)
      refine ⟨_, ⟨some r.src, hsup', fun z hz => (Option.some.inj hz).symm⟩, henc, ?_, ?_, .inr hlater⟩
      · rw [hgiven, ← hused]
      · change _ ++ (_ ++ y.later) = _
        rw [hlater, List.append_nil]
        exact hleft

end Turns

end Whole

/-! ## What such an encoding makes -/

section Made

variable {process : v.Enc → Window → Flush → Status × v.Enc × Window}

/-- What one call under `ZU_FINISH` does with an encoder that has taken `x` of `src` and given `y`: it
goes on, or ends with all of `src` taken and a code of it given. -/
structure Makes (Sent : v.Enc → List UInt8 → List UInt8 → List UInt8 → Prop)
    (Made : List UInt8 → List UInt8 → Prop) (src x y : List UInt8) (w : Window)
    (r : Status × v.Enc × Window) (u : ℕ) (o : List UInt8) : Prop where
  moved : r.2.2 = (w.take u).put o
  goes : r.1.isError = false → r.1 ≠ .streamEnd →
    Sent r.2.1 src (x ++ w.input.take u) (y ++ o)
  ends : r.1 = .streamEnd → x ++ w.input.take u = src ∧ Made src (y ++ o)

/-- An encoding in one slice is a code of its payload. -/
theorem encodesBy_made (hv : v.encoderProcess = onBuffer process)
    {Sent : v.Enc → List UInt8 → List UInt8 → List UInt8 → Prop}
    {Made : List UInt8 → List UInt8 → Prop} (hopen : e.finished = false) {n : ℕ}
    (hnew : ∀ src, src.length ≤ n → Sent e.state src [] [])
    (hstep : ∀ {s src x y} (w : Window), Sent s src x y → x ++ w.input = src →
      ∃ u o, Makes Sent Made src x y w (process s w .finish) u o)
    {src b : List UInt8} (h : Encoding.EncodesBy (OneSlice n) e src b) : Made src b := by
  -- what is known of an encoding of which `src` is the payload
  let Known (src : List UInt8) (s : Encoding v) : Prop :=
    (s.enc.finished = false ∧ Sent s.enc.state src s.taken s.given) ∨
      (s.enc.finished = true ∧ s.taken = src ∧ Made src s.given)
  have hnext {src : List UInt8} {s : Encoding v} (hs : Known src s) {buf : Buffer}
      (hall : s.taken ++ buf.unread = src) (hmeets : OneSlice n s.enc buf .finish) :
      Known src (s.next buf .finish) ∧
        ((encoderProcess s.enc buf .finish).1 = .streamEnd → Made src (s.next buf .finish).given) := by
    rcases Encoding.next_cases hv s buf .finish with ⟨hsame, hend⟩ | ⟨hfin, hcall⟩
    · rw [hsame]
      refine ⟨hs, fun hst => ?_⟩
      rcases hs with ⟨hfin, -⟩ | ⟨-, -, hmade⟩
      · exact absurd (hend hst) (by simp [hfin])
      · exact hmade
    · rcases hs with ⟨-, hsent⟩ | ⟨hfin', -⟩
      swap
      · exact absurd hfin' (by simp [hfin])
      obtain ⟨u, o, hmoved, hgoes, hends⟩ := hstep buf.window hsent hall
      obtain ⟨heq, hst⟩ := hcall (process s.enc.state buf.window .finish).1
        (process s.enc.state buf.window .finish).2.1 u o (Prod.ext rfl (Prod.ext rfl hmoved))
      rw [← hst] at hgoes hends
      rw [heq, ← hst]
      by_cases hend : (encoderProcess s.enc buf .finish).1 = .streamEnd
      · obtain ⟨htaken, hmade⟩ := hends hend
        exact ⟨.inr ⟨beq_iff_eq.mpr hend, htaken, hmade⟩, fun _ => hmade⟩
      · exact ⟨.inl ⟨beq_eq_false_iff_ne.mpr hend, hgoes hmeets.goes hend⟩,
          fun hst => absurd hst hend⟩
  have hstart (src : List UInt8) (hlen : src.length ≤ n) : Known src (.start e) :=
    .inl ⟨hopen, hnew src hlen⟩
  have hsupplied : ∀ {offered s}, Encoding.SuppliedBy (OneSlice n) e offered s →
      (offered = none → s = .start e) ∧ ∀ src, offered = some src → Known src s := by
    intro offered s hs
    induction hs with
    | new => exact ⟨fun _ => rfl, nofun⟩
    | more _ buf hmode hmeets _ => exact absurd hmeets.finish hmode
    | finish _ buf hmeets ih =>
      refine ⟨nofun, fun src hsrc => ?_⟩
      obtain rfl := ih.1 rfl
      cases hsrc
      exact (hnext (hstart _ hmeets.within) rfl hmeets).1
    | rest _ hbuf mode hmeets ih =>
      refine ⟨nofun, fun src hsrc => ?_⟩
      cases hsrc
      obtain rfl := hmeets.finish
      exact (hnext (ih.2 _ rfl) hbuf hmeets).1
  obtain ⟨offered, s, buf, hs, hoffer, hmeets, hend, rfl, rfl⟩ := h
  obtain ⟨hnone, hsome⟩ := hsupplied hs
  have hknown : Known (s.taken ++ buf.unread) s := by
    cases offered with
    | none =>
      rw [hnone rfl]
      exact hstart _ hmeets.within
    | some y => exact hoffer y rfl ▸ hsome y rfl
  exact (hnext hknown rfl hmeets).2 hend

end Made

/-! ## The whole run -/

/-- What the loop has written at the stream's end is an encoding of the whole source, by calls under
`ZU_FINISH` alone. -/
theorem whole_encodesBy {process : v.Enc → Window → Flush → Status × v.Enc × Window}
    (hv : v.encoderProcess = onBuffer process)
    (hmoves : ∀ s w mode, ∃ u o, (process s w mode).2.2 = (w.take u).put o)
    (hin : r.src.length ≤ r.inChunk) {out : OutBuf}
    (h : Returns (wholeTurn encoderProcess r) (.start e r .empty) (.streamEnd, out)) :
    Encoding.EncodesBy (OneSlice r.src.length) e r.src out.used :=
  h.keeps (fun x => ∃ s, Whole.Encoded e r x s)
    (fun _ ⟨_, hx⟩ => Whole.wholeTurn_encoded hv hmoves hin hx) ⟨_, Whole.encoded_start e r⟩ rfl

end Zukomp
