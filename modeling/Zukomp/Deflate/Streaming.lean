import Zukomp.Deflate.Decode

/-! # The decoders of the family keep to their streams

The whole call of `deflate_process`, from the turns of its loop: on a valid stream the
streaming contract, and with other bytes after the members the ends that `StreamEnds` lists.
-/

namespace Zukomp

open Library

variable {E : MzStream} {Valid : Progressive UInt8 → Prop} {I : Inflates E Valid}
  {wrap : WrapKind} {decFlags : UInt32} {ms : List Member} {junk : List UInt8}

theorem Phase.announce {s : DeflateState E} {last last' : Bool} {m : Member} {post : List Member}
    {i j : ℕ} (h : Phase I s last m post junk i j) (hlast : last = true → last' = true) :
    Phase I s last' m post junk i j := by
  cases h with
  | zlibHeader state wrap noProbe engine summed pos read =>
    exact .zlibHeader state wrap noProbe engine summed pos read
  | gzipHeader state wrap noProbe engine summed pos awaits =>
    exact .gzipHeader state wrap noProbe engine summed pos awaits
  | body state noProbe engine called finishing unended summed =>
    exact .body state noProbe engine called (fun h => hlast (finishing h)) unended summed
  | trailer state wrap noProbe engine summed pos read =>
    exact .trailer state wrap noProbe engine summed pos read
  | memberEnd state wrap engine right held concat =>
    exact .memberEnd state wrap engine right held concat
  | committed state wrap noProbe concat none right begins pos error =>
    exact .committed state wrap noProbe concat none right begins pos error

/-- A decoder is within the members, or past the last with all of the text delivered. -/
theorem DeflateAt.bounds (hms : wrap.TailedStream Valid decFlags ms junk) {s : DeflateState E}
    {last : Bool} {p q : ℕ} (h : DeflateAt I wrap decFlags ms junk s last p q) :
    p ≤ (tailedCoding ms junk).code.length ∧ q ≤ (tailedCoding ms junk).text.length ∧
      ((Member.codes ms).length < p → q = (tailedCoding ms junk).text.length) := by
  obtain ⟨hd, pre, m, post, i, j, heq, hphase, rfl, rfl⟩ := h
  have hsplit : Split wrap Valid decFlags ms junk pre m post := ⟨hms, heq⟩
  have hcode := m.length_code
  have hcodes := hsplit.codes_length
  have hbody : m.text.length = m.body.text.length := rfl
  rw [hsplit.code_length, hsplit.text_length]
  cases hphase with
  | zlibHeader state wrap noProbe engine summed pos read =>
    obtain rfl := hd.wrap_eq.symm.trans wrap
    obtain ⟨_, _, hhead, _⟩ := hsplit.head
    have : m.head.length = 2 := by simp [hhead]
    omega
  | gzipHeader state wrap noProbe engine summed pos awaits => omega
  | body state noProbe engine called finishing unended summed =>
    obtain ⟨hp, hq⟩ := I.bounds engine
    have := m.body.ready_le hp
    omega
  | trailer state wrap noProbe engine summed pos read => omega
  | memberEnd state wrap engine right held concat =>
    split_ifs with hprobe
    · have hlen := (held hprobe).length_le
      rw [List.length_append, List.length_singleton] at hlen
      refine ⟨by omega, by omega, fun hlt => ?_⟩
      have hnil : Member.codes post = [] := List.eq_nil_of_length_eq_zero (by omega)
      cases post with
      | nil => simp
      | cons n post => exact absurd hnil (Member.codes_ne_nil (by simp))
    · omega
  | committed state wrap noProbe concat none right begins pos error =>
    subst none
    simp only [Member.codes_nil, Member.texts_nil, List.length_nil]
    omega

/-- Every turn of the loop keeps the decoder at its place in the stream, or answers. -/
theorem deflateStep_keeps (hms : wrap.TailedStream Valid decFlags ms junk) {s : DeflateState E}
    {w : Window} {mode : Flush} {p q : ℕ} {fails : Prop}
    (h : DeflateAt I wrap decFlags ms junk s (mode == .finish) p q)
    (hx : (tailedCoding ms junk).Shows p w.input (mode = .finish))
    (hfails : Starved mode (s, w) → fails) :
    Keeps I wrap decFlags ms junk fails p q w (mode == .finish) (deflateStep mode (s, w)) := by
  obtain ⟨hd, pre, m, post, i, j, heq, hphase, rfl, rfl⟩ := h
  have hsplit : Split wrap Valid decFlags ms junk pre m post := ⟨hms, heq⟩
  unfold deflateStep
  cases hphase with
  | zlibHeader state wrap noProbe engine summed pos read =>
    rw [state]
    exact zlibHeader_keeps hsplit hd state wrap noProbe engine summed pos read hx
  | gzipHeader state wrap noProbe engine summed pos awaits =>
    rw [state]
    exact gzipHeader_keeps hsplit hd state wrap noProbe engine summed pos awaits hx
  | body state noProbe engine called finishing unended summed =>
    rw [state]
    exact bodyStep_keeps hsplit hd state noProbe engine called finishing unended summed hx hfails
  | trailer state wrap noProbe engine summed pos read =>
    rw [state]
    exact trailerStep_keeps hsplit hd state wrap noProbe engine summed pos read hx
  | memberEnd state wrap engine right held concat =>
    rw [state]
    exact memberEndStep_keeps hsplit hd state wrap engine right held concat hx
  | committed state wrap noProbe concat none right begins pos error =>
    subst none
    rw [state]
    exact committed_keeps hsplit hd state wrap noProbe concat right begins pos error hx

theorem DeflateAt.announce {s : DeflateState E} {last last' : Bool} {p q : ℕ}
    (h : DeflateAt I wrap decFlags ms junk s last p q) (hlast : last = true → last' = true) :
    DeflateAt I wrap decFlags ms junk s last' p q := by
  obtain ⟨hd, pre, m, post, i, j, heq, hphase, hp, hq⟩ := h
  exact ⟨hd, pre, m, post, i, j, heq, hphase.announce hlast, hp, hq⟩

/-- The place in the stream of every state the loop passes through. -/
theorem DeflateAt.reaches (hms : wrap.TailedStream Valid decFlags ms junk) {s : DeflateState E}
    {w : Window} {mode : Flush} {p q : ℕ}
    (h : DeflateAt I wrap decFlags ms junk s (mode == .finish) p q)
    (hx : (tailedCoding ms junk).Shows p w.input (mode = .finish)) {y : DeflateState E × Window}
    (hy : Reaches (deflateStep mode) (s, w) y) :
    ∃ u o, w.Moved u o y.2 ∧ (tailedCoding ms junk).Writes q o ∧
      DeflateAt I wrap decFlags ms junk y.1 (mode == .finish) (p + u) (q + o.length) ∧
      holds ms junk (p + u) = holds ms junk p ∧
      (tailedCoding ms junk).Shows (p + u) y.2.input (mode = .finish) := by
  refine hy.invariant (fun y => ∃ u o, w.Moved u o y.2 ∧ (tailedCoding ms junk).Writes q o ∧
      DeflateAt I wrap decFlags ms junk y.1 (mode == .finish) (p + u) (q + o.length) ∧
      holds ms junk (p + u) = holds ms junk p ∧
      (tailedCoding ms junk).Shows (p + u) y.2.input (mode = .finish)) ?_
    ⟨0, [], .refl w, .nil, h, rfl, hx⟩
  rintro ⟨s', w'⟩ y ⟨u, o, hm, hw, hat, hholds, hx'⟩ hstep
  have hkeeps := deflateStep_keeps hms hat hx' (fun _ : Starved mode (s', w') => trivial)
  rw [hstep] at hkeeps
  obtain ⟨u', o', hm', hw', hat', hholds'⟩ := hkeeps
  refine ⟨u + u', o ++ o', hm.trans hm', hw.append hw', ?_, ?_, ?_⟩
  · rwa [List.length_append, ← Nat.add_assoc, ← Nat.add_assoc]
  · rw [← Nat.add_assoc]
    exact hholds'.trans hholds
  · rw [hm'.eq, ← Nat.add_assoc]
    exact hx'.drop u'

/-- A call answers as the course says, and gives up only if its engine is starved. -/
theorem deflateProcess_answer (hms : wrap.TailedStream Valid decFlags ms junk)
    {s : DeflateState E} {last : Bool} {w : Window} {mode : Flush} {p q : ℕ}
    (h : DeflateAt I wrap decFlags ms junk s last p q) (hlast : last = true → mode = .finish)
    (hx : (tailedCoding ms junk).Shows p w.input (mode = .finish)) :
    (deflateCourse I wrap decFlags ms junk).Answer (Starves s w mode)
      p q w (mode == .finish) (deflateProcess s w mode) := by
  have hstart : DeflateAt I wrap decFlags ms junk s (mode == .finish) p q :=
    h.announce (by simpa using hlast)
  obtain ⟨⟨s', w'⟩, hreach, hret⟩ := deflateProcess_returns s w mode
  obtain ⟨u, o, hm, hw, hat, hholds, hx'⟩ := hstart.reaches hms hx hreach
  have hkeeps := deflateStep_keeps hms hat hx'
    (fun hst => (⟨_, hreach, hst⟩ : Starves s w mode))
  rw [hret] at hkeeps
  exact hkeeps.after hm hw hholds

/-- A starved engine stops short of the end of the body. -/
theorem DeflateAt.starved_lt (hms : wrap.TailedStream Valid decFlags ms junk)
    {s : DeflateState E} {w : Window} {mode : Flush} {p q : ℕ}
    (h : DeflateAt I wrap decFlags ms junk s (mode == .finish) p q)
    (hx : (tailedCoding ms junk).Shows p w.input (mode = .finish)) (hst : Starved mode (s, w)) :
    p + (engineCall s w mode).used < (Member.codes ms).length := by
  obtain ⟨hd, pre, m, post, i, j, heq, hphase, rfl, rfl⟩ := h
  have hsplit : Split wrap Valid decFlags ms junk pre m post := ⟨hms, heq⟩
  obtain ⟨hs, -, -, -, hdata⟩ := hst
  simp only at hs hdata
  cases hphase with
  | body state noProbe engine called finishing unended summed =>
    obtain ⟨hp, -⟩ := I.bounds engine
    have hr := I.process (min w.room mzClamp) hsplit.body engine unended (hsplit.sees hx hp)
      (engineFlush_allows mode hd.encoder called (by simpa using finishing))
    obtain ⟨-, hshort⟩ := hr.short hdata
    have hused : (engineCall s w mode).used ≤ _ := E.used_le s.mz (w.input.take mzClamp)
      (min w.room mzClamp) (engineFlush s mode)
    have hcode := m.length_code
    rw [hsplit.codes_length]
    omega
  | zlibHeader state | gzipHeader state | trailer state | memberEnd state | committed state =>
    rw [hs] at state
    cases state

/-- A call whose engine is starved ends with the engine's data error, within the members. -/
theorem deflateProcess_starves (hms : wrap.TailedStream Valid decFlags ms junk)
    {s : DeflateState E} {last : Bool} {w : Window} {mode : Flush} {p q : ℕ}
    (h : DeflateAt I wrap decFlags ms junk s last p q) (hlast : last = true → mode = .finish)
    (hx : (tailedCoding ms junk).Shows p w.input (mode = .finish)) (hst : Starves s w mode) :
    (deflateProcess s w mode).1 = .errInvalidData ∧
      ∃ u o, w.Moved u o (deflateProcess s w mode).2.2 ∧ p + u < (Member.codes ms).length := by
  have hstart : DeflateAt I wrap decFlags ms junk s (mode == .finish) p q :=
    h.announce (by simpa using hlast)
  obtain ⟨⟨s', w'⟩, hreach, hst⟩ := hst
  obtain ⟨u, o, hm, -, hat, -, hx'⟩ := hstart.reaches hms hx hreach
  have hlt := hat.starved_lt hms hx' hst
  obtain ⟨hs, -, -, -, hdata⟩ := hst
  have hret : deflateStep mode (s', w') = .inr (.errInvalidData,
      afterEngine s' w' (engineCall s' w' mode),
      (w'.take (engineCall s' w' mode).used).put (engineCall s' w' mode).out) := by
    simp only at hs hdata
    have henc : s'.encoder = false := hat.1.encoder
    simp [deflateStep, hs, bodyStep, henc, hdata, fromMz]
  have hends := (deflateProcess_returns s w mode).unique ⟨_, hreach, hret⟩
  rw [hends]
  exact ⟨rfl, _, _, hm.trans (engineCall_moved s' w' mode), by rwa [← Nat.add_assoc]⟩

theorem StreamEnds.of_valid (hms : wrap.ValidStream Valid decFlags ms) {waited last empty : Bool}
    {read : ℕ} {st : Status} (h : StreamEnds wrap decFlags ms [] waited last read empty st) :
    st = .streamEnd ∧ read = (tailedCoding ms []).code.length := by
  cases h with
  | @checksum _ _ _ _ m eq wrong => exact absurd (hms.members m (by simp [eq])).tail wrong
  | ended eq right seen alone => exact ⟨rfl, by simp [streamCoding]⟩
  | dropped eq right follow junk_eq other => cases junk_eq
  | held eq right follow junk_eq => cases junk_eq
  | committed eq right follow begins read_le error =>
    exact absurd begins.length_le (by simp [gzipMagic])

theorem StreamEnds.final {waited last empty : Bool} {read : ℕ} {st : Status}
    (h : StreamEnds wrap decFlags ms junk waited last read empty st) :
    st ≠ .needInput ∧ st ≠ .needOutput := by
  cases h with
  | committed eq right follow begins read_le error =>
    have herr := GzipHeader.headerError_isError error
    refine ⟨?_, ?_⟩ <;>
    · rintro rfl
      cases herr
  | held => split_ifs <;> simp
  | _ => simp

theorem StreamEnds.codes_le {waited last empty : Bool} {read : ℕ} {st : Status}
    (h : StreamEnds wrap decFlags ms junk waited last read empty st) :
    (Member.codes ms).length ≤ read := by
  cases h with
  | committed eq right follow begins read_le error => exact read_le
  | dropped | held => exact Nat.le_succ _
  | _ => exact le_rfl

theorem DeflateAt.delivered (hms : wrap.TailedStream Valid decFlags ms junk) {s : DeflateState E}
    {last : Bool} {p q : ℕ} (h : DeflateAt I wrap decFlags ms junk s last p q)
    (hw : holds ms junk p = true) :
    q = (tailedCoding ms junk).text.length ∧ ¬ TextReady ms p := by
  have hlt : (Member.codes ms).length < p := by
    simp only [holds, decide_eq_true_eq] at hw
    exact hw.1
  refine ⟨(h.bounds hms).2.2 hlt, fun hstall => ?_⟩
  have := textReady_lt hstall
  omega

variable {M : Miniz}

/-- The decoder of the family for the members `ms` and the bytes `junk` after them. -/
def deflateClosing (I : Inflates M.inflate Valid) (codec : CodecId)
    (hms : wrap.TailedStream Valid decFlags ms junk) :
    ClosingDecoder (deflateVtable M codec wrap) where
  toCourse := deflateCourse I wrap decFlags ms junk
  process := deflateProcess
  lifted := deflateVtable_decodes M codec wrap
  Fails := Starves
  valid := (Member.codes ms).length
  valid_le := by simp [deflateCourse, tailedCoding, streamCoding]
  answers h hlast _ hx := deflateProcess_answer hms h hlast hx
  fails h hlast _ hx hst := deflateProcess_starves hms h hlast hx hst
  bounds h := ⟨(h.bounds hms).1, (h.bounds hms).2.1⟩
  delivered h hw := h.delivered hms hw
  final h := h.final
  ends_valid h := h.codes_le

/-- The decoder of the family for the valid stream `ms`. -/
def deflateDecoder (I : Inflates M.inflate Valid) (codec : CodecId)
    (hms : wrap.ValidStream Valid decFlags ms) :
    StreamDecoder (deflateVtable M codec wrap) (streamCoding ms) where
  process := deflateProcess
  lifted := deflateVtable_decodes M codec wrap
  At := DeflateAt I wrap decFlags ms []
  Stall := TextReady ms
  Fails := Starves
  Idles := True
  answers h hlast _ hx := by
    rw [← tailedCoding_nil] at hx ⊢
    have hanswer := (deflateProcess_answer hms.tailed h hlast hx).answer fun _ _ _ _ _ hend =>
      StreamEnds.of_valid hms hend
    exact hanswer.keepsPlace
  fails h hlast _ hx hst := by
    rw [← tailedCoding_nil] at hx
    exact (deflateProcess_starves hms.tailed h hlast hx hst).1
  bounds h := by
    rw [← tailedCoding_nil]
    exact ⟨(h.bounds hms.tailed).1, (h.bounds hms.tailed).2.1⟩
  stall_lt := textReady_lt

end Zukomp
