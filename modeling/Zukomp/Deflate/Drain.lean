import Zukomp.Core.Drain
import Zukomp.Deflate.Sticky

/-! # A DEFLATE decoder that asks for input is drained

A full window is never taken for a want of input: with no room left, `deflate_process` asks for
room whether or not there is input. So a request for input comes from the engine's own silence,
or from a wrapper that has nothing to write.
-/

namespace Zukomp

open Library

/-- What `mz_inflate` is assumed to hold back: decoded bytes that it writes as soon as it has
room, and without input nothing else. -/
structure MzStream.Drains (E : MzStream) where
  Pending : E.State → Prop
  idle : ∀ {z} room {flush}, flush ≠ .finish → ¬ Pending z →
    (E.process z [] room flush).out = [] ∧ ¬ Pending (E.process z [] room flush).state
  writes : ∀ {z room flush}, flush ≠ .finish → 0 < room → Pending z →
    (E.process z [] room flush).status = .ok ∨ (E.process z [] room flush).status = .bufError →
      (E.process z [] room flush).out ≠ []

/-- The reference engine holds back what it had no room for. -/
def refInflateDrains (c : Progressive UInt8) : (refInflate c).Drains where
  Pending z := z.failed = false ∧ c.Holds z.read z.written
  idle := by
    intro (z : RefInflate) room flush hflush hidle
    change (refInflateStep c z [] room flush).out = [] ∧
      ¬ ((refInflateStep c z [] room flush).state.failed = false ∧ c.Holds
        (refInflateStep c z [] room flush).state.read
        (refInflateStep c z [] room flush).state.written)
    unfold refInflateStep
    by_cases hfailed : z.failed = true
    · simp [hfailed]
    have hnone : ¬ c.Holds z.read z.written := fun h => hidle ⟨by simpa using hfailed, h⟩
    simp only [c.serve_idle hnone, List.take_zero, ne_eq, not_true_eq_false, or_false, hfailed,
      Bool.false_eq_true, if_false, hflush, false_and, Nat.add_zero, List.length_nil]
    exact ⟨trivial, fun h => hnone h.2⟩
  writes := by
    intro (z : RefInflate) room flush hflush hroom hpending _
    change (refInflateStep c z [] room flush).out ≠ []
    have hout := c.serve_holds hpending.2 hroom
    unfold refInflateStep
    simp only [c.serve_nil, List.take_zero, ne_eq, not_true_eq_false, or_false, hpending.1,
      Bool.false_eq_true, if_false, hflush, false_and] at hout ⊢
    exact hout

variable {E : MzStream} {s : DeflateState E} {w : Window} {mode : Flush}

/-- A decoder that has nothing to write until it reads: no header it has read whole, and no body
with decoded bytes in the engine. -/
structure DeflateQuiet (D : E.Drains) (s : DeflateState E) : Prop where
  header : s.state = .header → s.wrap = .gzip ∨ s.hdrPos < s.hdrLen
  body : s.state = .body → ¬ D.Pending s.mz

theorem engineFlush_ne_finish (s : DeflateState E) (h : mode ≠ .finish) :
    engineFlush s mode ≠ .finish := by
  unfold engineFlush
  split_ifs with hfirst
  · simp
  · cases mode <;> simp_all [toMzFlush]

theorem fromMz_ne_needInput (st : MzStatus) : fromMz st ≠ .needInput := by
  cases st <;> simp [fromMz]

theorem deflateReset_encoder (s : DeflateState E) (level : ℤ) :
    (deflateReset s level).2.encoder = s.encoder := by
  unfold deflateReset
  dsimp only
  split <;> rfl

/-! ## Turns of a quiet decoder -/

/-- With nothing to read, a turn of a quiet decoder writes nothing. -/
def Rests (D : E.Drains) (w : Window) : Next E → Prop :=
  Turn (fun y => y.1.encoder = false ∧ DeflateQuiet D y.1 ∧ y.2 = w)
    (fun r => DeflateQuiet D r.2.1 ∧ r.2.2 = w)

variable {D : E.Drains}

theorem headerStep_rests (henc : s.encoder = false) (hs : s.state = .header)
    (hq : DeflateQuiet D s) (hw : w.input = []) : Rests D w (headerStep s w mode) := by
  unfold headerStep
  rw [if_neg (by simp [henc]), hw]
  rcases hq.header hs with hgzip | hpos
  · rw [if_pos hgzip]
    exact ⟨hq, rfl⟩
  · split_ifs
    · exact ⟨hq, rfl⟩
    · exact ⟨hq, rfl⟩

/-- What an idle engine leaves of the state and the window. -/
theorem bodyStep_rests (henc : s.encoder = false) (hs : s.state = .body) (hq : DeflateQuiet D s)
    (hw : w.input = []) (hmode : mode ≠ .finish) : Rests D w (bodyStep s w mode) := by
  have hcall : engineCall s w mode =
      E.process s.mz [] (min w.room mzClamp) (engineFlush s mode) := by
    rw [engineCall, hw, List.take_nil]
  obtain ⟨hout, hidle⟩ := D.idle (min w.room mzClamp) (engineFlush_ne_finish s hmode) (hq.body hs)
  have hused : (engineCall s w mode).used = 0 := by
    have hle := E.used_le s.mz [] (min w.room mzClamp) (engineFlush s mode)
    rw [hcall]
    exact Nat.le_zero.mp hle
  rw [← hcall] at hout hidle
  have hafter : DeflateQuiet D (afterEngine s w (engineCall s w mode)) := by
    refine ⟨fun h => ?_, fun _ => by rwa [afterEngine_mz]⟩
    rw [afterEngine_state, hs] at h
    cases h
  have hstill : (w.take (engineCall s w mode).used).put (engineCall s w mode).out = w := by
    rw [hused, hout, Window.take_zero, Window.put_nil]
  unfold bodyStep
  rw [if_neg (by simp [henc])]
  dsimp only
  rw [hstill]
  split_ifs
  · exact ⟨by simp [enterTrailer, henc], ⟨by simp [enterTrailer], by simp [enterTrailer]⟩, rfl⟩
  · exact ⟨⟨by simp, by simp⟩, rfl⟩
  · exact ⟨hafter, rfl⟩
  · exact ⟨hafter, rfl⟩
  · exact ⟨by simp [henc], hafter, rfl⟩

theorem trailerStep_rests (henc : s.encoder = false) (hs : s.state = .trailer) (hw : w.input = []) :
    Rests D w (trailerStep s w mode) := by
  have hquiet : DeflateQuiet D s := ⟨by simp [hs], by simp [hs]⟩
  unfold trailerStep
  rw [if_neg (by simp [henc]), hw]
  split_ifs
  · exact ⟨hquiet, rfl⟩
  · exact ⟨hquiet, rfl⟩
  · exact ⟨henc, ⟨by simp, by simp⟩, rfl⟩

theorem memberEndStep_rests (hs : s.state = .memberEnd) (hw : w.input = []) :
    Rests D w (memberEndStep s w mode) := by
  unfold memberEndStep finishMember
  rw [hw]
  dsimp only
  split_ifs <;> exact ⟨⟨by simp [hs], by simp [hs]⟩, rfl⟩

theorem deflateStep_rests (henc : s.encoder = false) (hq : DeflateQuiet D s) (hw : w.input = [])
    (hmode : mode ≠ .finish) : Rests D w (deflateStep mode (s, w)) := by
  unfold deflateStep
  dsimp only
  cases hs : s.state with
  | done => exact ⟨hq, rfl⟩
  | header => exact headerStep_rests henc hs hq hw
  | body => exact bodyStep_rests henc hs hq hw hmode
  | memberEnd => exact memberEndStep_rests hs hw
  | trailer => exact trailerStep_rests henc hs hw

theorem deflateProcess_rests (henc : s.encoder = false) (hq : DeflateQuiet D s)
    (hw : w.input = []) (hmode : mode ≠ .finish) :
    DeflateQuiet D (deflateProcess s w mode).2.1 ∧ (deflateProcess s w mode).2.2 = w := by
  refine runLoop_keeps
    (fun x : DeflateState E × Window => x.1.encoder = false ∧ DeflateQuiet D x.1 ∧ x.2 = w)
    (fun r : Status × DeflateState E × Window => DeflateQuiet D r.2.1 ∧ r.2.2 = w) ?_
    (fun x hx => hx.2) ⟨henc, hq, rfl⟩ _
  rintro ⟨s, w'⟩ ⟨henc, hq, rfl⟩
  exact deflateStep_rests henc hq hw hmode

/-! ## Turns that ask for input -/

/-- A decoder's turn that asks for input leaves it quiet. -/
def Asks (D : E.Drains) : Next E → Prop :=
  Turn (fun y => y.1.encoder = false)
    (fun r => r.2.1.encoder = false ∧ (r.1 = .needInput → DeflateQuiet D r.2.1))

theorem asks_return (henc : s.encoder = false) {st : Status} (hst : st ≠ .needInput) (w : Window) :
    Asks D (.inr (st, s, w)) := ⟨henc, fun h => absurd h hst⟩

theorem headerStep_asks (henc : s.encoder = false) (hs : s.state = .header) :
    Asks D (headerStep s w mode) := by
  have hbody : s.state ≠ .body := by simp [hs]
  unfold headerStep
  rw [if_neg (by simp [henc])]
  split_ifs with hgzip hpos hcheck
  · cases w.input with
    | nil => exact ⟨henc, fun _ => ⟨fun _ => .inl hgzip, fun h => absurd h hbody⟩⟩
    | cons b rest =>
      have hfeed := s.gz.feed_status b
      dsimp only
      split
      · exact henc
      · exact henc
      · next heq =>
        rw [heq] at hfeed
        exact asks_return (by exact henc) (fun h => by simp [h, Status.isError] at hfeed) _
  · cases w.input with
    | nil => exact ⟨henc, fun _ => ⟨fun _ => .inr hpos, fun h => absurd h hbody⟩⟩
    | cons b rest => exact henc
  · have hdata := zlibCheckHeader_isDataError hcheck
    exact asks_return henc (fun h => by rw [h] at hdata; cases hdata) w
  · exact henc

theorem stalled_needInput (h : stalled s w mode = .needInput) :
    w.room ≠ 0 ∧ w.input = [] ∧ mode ≠ .finish := by
  unfold stalled at h
  split_ifs at h with hroom hinput hmode
  exact ⟨hroom, hinput, hmode⟩

theorem bodyStep_asks (henc : s.encoder = false) (hs : s.state = .body) :
    Asks D (bodyStep s w mode) := by
  have hafter : (afterEngine s w (engineCall s w mode)).encoder = false := by simp [henc]
  unfold bodyStep
  rw [if_neg (by simp [henc])]
  dsimp only
  split_ifs with hend hwrap hbad hstill
  · exact hafter
  · exact asks_return (by exact hafter) (by simp) _
  · exact asks_return hafter (fromMz_ne_needInput _) _
  · refine ⟨hafter, fun (hask : stalled _ _ mode = .needInput) => ?_⟩
    rw [hstill.1, hstill.2, Window.take_zero, Window.put_nil] at hask
    obtain ⟨hroom, hw, hmode⟩ := stalled_needInput hask
    have hcall : engineCall s w mode =
        E.process s.mz [] (min w.room mzClamp) (engineFlush s mode) := by
      rw [engineCall, hw, List.take_nil]
    have hflush := engineFlush_ne_finish s hmode
    have hok : (engineCall s w mode).status = .ok ∨ (engineCall s w mode).status = .bufError := by
      tauto
    have hmin : 0 < min w.room mzClamp :=
      lt_min (Nat.pos_of_ne_zero hroom) (by norm_num [mzClamp])
    have hidle : ¬ D.Pending s.mz := by
      intro hpending
      rw [hcall] at hok hstill
      exact D.writes hflush hmin hpending hok hstill.2
    refine ⟨fun h => ?_, fun _ => ?_⟩
    · rw [afterEngine_state, hs] at h
      cases h
    · rw [afterEngine_mz, hcall]
      exact (D.idle _ hflush hidle).2
  · exact hafter

theorem trailerStep_asks (henc : s.encoder = false) (hs : s.state = .trailer) :
    Asks D (trailerStep s w mode) := by
  unfold trailerStep
  rw [if_neg (by simp [henc])]
  split_ifs with hpos hcheck
  · cases w.input with
    | nil => exact ⟨henc, fun _ => ⟨by simp [hs], by simp [hs]⟩⟩
    | cons b rest => exact henc
  · have hdata := checkTail_isDataError hcheck
    exact asks_return henc (fun h => by rw [h] at hdata; cases hdata) w
  · exact henc

theorem nextMember_asks (henc : s.encoder = false) (held : Bool) :
    Asks D (nextMember s w held) := by
  unfold nextMember
  rcases deflateReset_decoder henc with ⟨mz, -, hr⟩ | ⟨mz, -, hr⟩
  · rw [hr]
    dsimp only
    generalize (if s.wrap = .gzip then gzipHeaderInit else s.gz) = gz
    cases held with
    | true =>
      have hfeed := gz.feed_status 0x1F
      rw [if_pos rfl]
      split
      · exact henc
      · next heq =>
        rw [heq] at hfeed
        exact asks_return (by exact henc) (fun h => by simp [h, Status.isError] at hfeed) w
    | false => exact henc
  · rw [hr]
    exact asks_return (by exact henc) (by simp) w

theorem memberEndStep_asks (henc : s.encoder = false) (hs : s.state = .memberEnd) :
    Asks D (memberEndStep s w mode) := by
  have hquiet (probe : Bool) : DeflateQuiet D { s with probeMagic := probe } :=
    ⟨by simp [hs], by simp [hs]⟩
  have hends (state : WrapState) (probe : Bool) (w : Window) :
      Asks D (.inr (.streamEnd, { s with probeMagic := probe, state := state }, w)) :=
    asks_return (by exact henc) (by simp) w
  have hfinish : Asks D (finishMember s w) := by
    unfold finishMember
    dsimp only
    split_ifs
    · exact asks_return (by exact henc) (by simp) w
    · exact hends .done false w
    · exact hends .done s.probeMagic w
  unfold memberEndStep
  cases w.input with
  | nil =>
    dsimp only
    split_ifs
    · exact ⟨henc, fun _ => hquiet s.probeMagic⟩
    · exact hfinish
  | cons b rest =>
    cases rest with
    | nil =>
      dsimp only
      split_ifs
      · exact hfinish
      · exact hends .done s.probeMagic w
      · exact hends .done s.probeMagic w
      · exact ⟨henc, fun _ => hquiet true⟩
      · exact hends .done false w
      · exact nextMember_asks henc true
    | cons c rest =>
      dsimp only
      split_ifs
      · exact hfinish
      · exact hends .done s.probeMagic w
      · exact hends .done s.probeMagic w
      · exact nextMember_asks henc false
      · exact hends .done false w
      · exact nextMember_asks henc true

theorem deflateStep_asks (henc : s.encoder = false) : Asks D (deflateStep mode (s, w)) := by
  unfold deflateStep
  dsimp only
  cases hs : s.state with
  | done => exact asks_return henc (by simp) w
  | header => exact headerStep_asks henc hs
  | body => exact bodyStep_asks henc hs
  | memberEnd => exact memberEndStep_asks henc hs
  | trailer => exact trailerStep_asks henc hs

theorem deflateProcess_asks (D : E.Drains) (henc : s.encoder = false) (w : Window) (mode : Flush) :
    (deflateProcess s w mode).2.1.encoder = false ∧
      ((deflateProcess s w mode).1 = .needInput → DeflateQuiet D (deflateProcess s w mode).2.1) :=
  runLoop_keeps (fun x : DeflateState E × Window => x.1.encoder = false)
    (fun r : Status × DeflateState E × Window =>
      r.2.1.encoder = false ∧ (r.1 = .needInput → DeflateQuiet D r.2.1))
    (fun _ hx => deflateStep_asks hx) (fun _ hx => ⟨hx, fun h => by cases h⟩) henc _

theorem deflateNew_decoder {wrap : WrapKind} {level : ℤ} {flags : UInt32}
    (h : deflateNew E wrap false level flags = .ok s) : s.encoder = false := by
  unfold deflateNew at h
  dsimp only at h
  split at h
  · cases h
    rfl
  · cases h

/-- The decoders of the family, with any room left. -/
def deflateDrain {M : Miniz} (D : M.inflate.Drains) (codec : CodecId) (wrap : WrapKind) :
    DecoderDrain (deflateVtable M codec wrap) where
  process := deflateProcess
  lifted := deflateVtable_decodes M codec wrap
  advances := deflateProcess_advances
  Inv s := DeflateState.encoder s = false
  Quiet s := DeflateQuiet D s
  Tells _ := True
  inv_new h := deflateNew_decoder h
  inv_process {s} w mode h := (deflateProcess_asks D h w mode).1
  inv_reset := by
    rintro reset s o hreset h
    cases hreset
    exact (deflateReset_encoder _ levelDefault).trans h
  quiet := by
    rintro s w mode h hq hw hmode
    obtain ⟨hquiet, hsame⟩ := deflateProcess_rests h hq hw hmode
    exact ⟨congrArg Window.written hsame, hquiet⟩
  asks {s w} h hask _ := (deflateProcess_asks D h w .run).2 hask

end Zukomp
