import Zukomp.Core.Contract
import Zukomp.Library.Loop

/-! # Feeding a stream to a decoder

A caller holds a stream as a list of buffers, offers each under `ZU_RUN` and the last
under `ZU_FINISH`, refills on `ZU_NEED_INPUT` and brings a fresh window on
`ZU_NEED_OUTPUT`. A decoder that keeps the contract delivers the text to every such
caller, up to the ceiling.
-/

namespace Zukomp

open Library

/-- The windows a caller brings, by the number of the call: whether it also brings a fresh
one with new input, and whether it brings new input in place of a fresh one, to a call that
asks for room with its buffer used up. -/
structure Windows where
  size : ℕ → ℕ
  pos : ∀ i, 0 < size i
  refresh : ℕ → Bool
  refill : ℕ → Bool

def byteWindows : Windows where
  size _ := 1
  pos _ := Nat.one_pos
  refresh _ := false
  refill _ := false

/-- A caller in mid-stream: the rest of its buffer, the buffers to come, the room left in
its window and what it has been given. -/
structure Feed (v : CodecVtable) where
  dec : Decoder v
  unread : List UInt8
  later : List (List UInt8)
  room : ℕ
  calls : ℕ
  written : List UInt8

/-- How a stream ended for the caller. -/
structure FeedEnd where
  status : Status
  written : List UInt8

variable {v : CodecVtable}

theorem DecoderOpts.ceiling_status {o : DecoderOpts} {C : UInt64} {status : Status}
    (h : o.ceiling = some (C, status)) : status = .errInvalidData ∨ status = .errOutputLimit := by
  unfold ceiling at h
  split_ifs at h <;> cases h
  · exact .inl rfl
  · exact .inr rfl

theorem DecoderOpts.hasExpected_of_none {o : DecoderOpts} (h : o.ceiling = none) :
    o.hasExpected = false := by
  unfold ceiling at h
  split_ifs at h with h1 h2
  by_contra he
  exact h1 ⟨by simpa using he, .inl (by simpa using h2)⟩

namespace Feed

/-- `ZU_FINISH` goes with the last buffer. -/
def mode (f : Feed v) : Flush := if f.later = [] then .finish else .run

theorem later_of_finish (f : Feed v) (h : (f.mode == .finish) = true) : f.later = [] := by
  by_contra hne
  simp [mode, hne] at h

def start (d : Decoder v) (room : ℕ) : List (List UInt8) → Feed v
  | [] => ⟨d, [], [], room, 0, []⟩
  | chunk :: later => ⟨d, chunk, later, room, 0, []⟩

end Feed

/-- One call of the caller, and what it does with the answer. -/
def feedTurn (ws : Windows) (f : Feed v) : Feed v ⊕ FeedEnd :=
  let r := decoderProcess f.dec (.ofParts f.unread f.room) f.mode
  let next (unread : List UInt8) (later : List (List UInt8)) (room : ℕ) : Feed v :=
    { dec := r.2.1, unread := unread, later := later, room := room, calls := f.calls + 1
      written := f.written ++ r.2.2.stored }
  match r.1, f.later with
  | .needInput, chunk :: later => .inl (next (r.2.2.unread ++ chunk) later
      (if ws.refresh f.calls then ws.size f.calls else r.2.2.availOut))
  | .needOutput, chunk :: later =>
    if ws.refill f.calls ∧ r.2.2.unread = [] then
      .inl (next (r.2.2.unread ++ chunk) later r.2.2.availOut)
    else .inl (next r.2.2.unread (chunk :: later) (ws.size f.calls))
  | .needOutput, [] => .inl (next r.2.2.unread [] (ws.size f.calls))
  | st, _ => .inr ⟨st, f.written ++ r.2.2.stored⟩

/-- The length of the stream up to the end of a buffer that is not the last. -/
def Boundary (chunks : List (List UInt8)) (p : ℕ) : Prop :=
  ∃ i, 1 ≤ i ∧ i < chunks.length ∧ p = (chunks.take i).flatten.length

namespace StreamDecoder

variable {c : Coding UInt8} (k : StreamDecoder v c)

/-- The codec gives up on the call the caller is about to make. -/
def FailsAt (f : Feed v) : Prop :=
  k.Fails f.dec.state (shownWindow f.dec (.ofParts f.unread f.room)) f.mode

/-- A caller that has read `p` bytes of the stream and been given `q`. Its windows may be empty, so
its decoder is one that idles. -/
structure Fed (chunks : List (List UInt8)) (opts : DecoderOpts) (f : Feed v) (p q : ℕ) : Prop where
  idles : k.Idles
  standing : ∃ last, k.Standing f.dec last p q ∧ (last = true → f.later = [])
  opts_eq : f.dec.opts = opts
  piece : ∃ i, 1 ≤ i ∧ i ≤ chunks.length ∧ f.later = chunks.drop i ∧
    (chunks.take (i - 1)).flatten.length ≤ p
  rest : f.unread ++ f.later.flatten = c.code.drop p
  writes : c.Writes 0 f.written
  count : f.written.length = q

/-- The ends of a stream that the contract allows. -/
inductive Fair (chunks : List (List UInt8)) (opts : DecoderOpts) : FeedEnd → Prop
  | ended (size : opts.hasExpected → opts.expectedSize.toNat = c.text.length)
      (within : ∀ C status, opts.ceiling = some (C, status) → c.text.length ≤ C.toNat) :
      Fair chunks opts ⟨.streamEnd, c.text⟩
  | missized (expected : opts.hasExpected) (size : opts.expectedSize.toNat ≠ c.text.length)
      (within : ∀ C status, opts.ceiling = some (C, status) → c.text.length ≤ C.toNat) :
      Fair chunks opts ⟨.errInvalidData, c.text⟩
  | capped {C : UInt64} {status : Status} {written : List UInt8}
      (ceiling : opts.ceiling = some (C, status)) (spent : written.length = C.toNat)
      (writes : c.Writes 0 written)
      (owing : C.toNat < c.text.length ∨
        C.toNat = c.text.length ∧ ∃ p, Boundary chunks p ∧ k.Stall p) :
      Fair chunks opts ⟨status, written⟩

variable {k} in
theorem Fair.streamEnd {chunks : List (List UInt8)} {opts : DecoderOpts} {r : FeedEnd}
    (h : k.Fair chunks opts r) (hst : r.status = .streamEnd) :
    r.written = c.text ∧ (opts.hasExpected → opts.expectedSize.toNat = c.text.length) := by
  cases h with
  | ended size _ => exact ⟨rfl, size⟩
  | missized _ _ _ => cases hst
  | capped ceiling _ _ _ =>
    rcases DecoderOpts.ceiling_status ceiling with rfl | rfl <;> cases hst

def feedMeasure (c : Coding UInt8) (f : Feed v) : ℕ :=
  2 * f.later.length + 2 * (c.text.length - f.written.length) + if f.room = 0 then 1 else 0

variable {k} {chunks : List (List UInt8)} {opts : DecoderOpts} {f : Feed v} {p q : ℕ}

theorem Fed.shows (h : k.Fed chunks opts f p q) :
    c.Shows p f.unread (f.mode = .finish) := by
  refine ⟨⟨_, h.rest⟩, fun hm => ?_⟩
  simpa [f.later_of_finish (by simp [hm])] using h.rest

theorem Fed.mode_ne (f : Feed v) : f.mode ≠ .flush := by
  unfold Feed.mode
  split_ifs <;> simp

theorem flatten_split (hcode : chunks.flatten = c.code) (i : ℕ) :
    (chunks.take i).flatten.length + (chunks.drop i).flatten.length = c.code.length := by
  rw [← hcode, ← List.length_append, ← List.flatten_append, List.take_append_drop]

theorem Fed.split (h : k.Fed chunks opts f p q) (hcode : chunks.flatten = c.code) {i : ℕ}
    (hlater : f.later = chunks.drop i) :
    p + f.unread.length = (chunks.take i).flatten.length := by
  have hrest := congrArg List.length h.rest
  have hsplit := flatten_split hcode i
  obtain ⟨last, hstand, _⟩ := h.standing
  have hp := (k.bounds hstand.at_).1
  rw [List.length_append, List.length_drop, hlater] at hrest
  omega

theorem Fed.unread_le (h : k.Fed chunks opts f p q) (hcode : chunks.flatten = c.code) :
    ∃ chunk ∈ chunks, f.unread.length ≤ chunk.length := by
  obtain ⟨i, h1, hi, hlater, hp⟩ := h.piece
  have hsplit := h.split hcode hlater
  obtain ⟨j, rfl⟩ : ∃ j, i = j + 1 := ⟨i - 1, by omega⟩
  refine ⟨chunks[j], List.getElem_mem _, ?_⟩
  rw [List.take_succ_eq_append_getElem (by omega), List.flatten_append, List.length_append,
    List.flatten_singleton] at hsplit
  simp only [Nat.add_sub_cancel] at hp
  omega

theorem Fed.lt_of_run (h : k.Fed chunks opts f p q) (hmore : f.mode ≠ .finish) :
    ∃ i, 1 ≤ i ∧ i < chunks.length ∧ f.later = chunks.drop i := by
  obtain ⟨i, h1, hi, hlater, -⟩ := h.piece
  have hne : f.later ≠ [] := fun h => hmore (by simp [Feed.mode, h])
  refine ⟨i, h1, ?_, hlater⟩
  by_contra hge
  exact hne (by rw [hlater, List.drop_eq_nil_of_le (by omega)])

/-- From one buffer to the next. A caller with a fresh window for every full one passes a
boundary where the decoder stalls only while the ceiling is not the text's own length. -/
def Passes (k : StreamDecoder v c) (ws : Windows) (chunks : List (List UInt8))
    (opts : DecoderOpts) (f f' : Feed v) : Prop :=
  f'.later = f.later ∨ ∃ i < chunks.length, f.later = chunks.drop i ∧
    f'.later = chunks.drop (i + 1) ∧ ((∀ n, ws.refill n = false) →
      k.Stall (chunks.take i).flatten.length →
        ∀ C status, opts.ceiling = some (C, status) → c.text.length < C.toNat)

/-- A call that does not fail moves the caller on, or ends its stream fairly. -/
theorem feedTurn_fed (ws : Windows) (hcode : chunks.flatten = c.code)
    (h : k.Fed chunks opts f p q) (hf : ¬ k.FailsAt f) :
    Turn (fun f' => (∃ p' q', k.Fed chunks opts f' p' q') ∧
        feedMeasure c f' < feedMeasure c f ∧ Passes k ws chunks opts f f')
      (fun r => k.Fair chunks opts r ∧ (r.status = .streamEnd → f.later.flatten = []))
      (feedTurn ws f) := by
  obtain ⟨last, hstand, hlast⟩ := h.standing
  obtain ⟨u, o, hm, hopts, hceil, hj⟩ :=
    process_judged (.ofParts f.unread f.room) f.mode hstand (checkBuffer_ofParts ..)
      (fun hl => by simp [Feed.mode, hlast hl]) (Fed.mode_ne f) (by simpa using h.shows) hf
  have hread : u ≤ f.unread.length := by simpa using hm.read_le
  have hunread : (decoderProcess f.dec (.ofParts f.unread f.room) f.mode).2.2.unread =
      f.unread.drop u := by simpa using hm.unread
  have hwritten : c.Writes 0 (f.written ++ o) := h.writes.append (by simpa [h.count] using hm.writes)
  have hlen : (f.written ++ o).length = q + o.length := by simp [h.count]
  have hrest : f.unread.drop u ++ f.later.flatten = c.code.drop (p + u) := by
    rw [← List.drop_drop, ← h.rest, List.drop_append_of_le_length hread]
  -- a buffer that is used up ends at the boundary
  have hused {i : ℕ} (hlater : f.later = chunks.drop i) (hnil : f.unread.drop u = []) :
      p + u = (chunks.take i).flatten.length := by
    rw [List.drop_eq_nil_iff] at hnil
    have := h.split hcode hlater
    omega
  have hpiece : ∃ i, 1 ≤ i ∧ i ≤ chunks.length ∧ f.later = chunks.drop i ∧
      (chunks.take (i - 1)).flatten.length ≤ p + u := by
    obtain ⟨i, h1, hi, hlater, hp⟩ := h.piece
    exact ⟨i, h1, hi, hlater, by omega⟩
  have hle := hwritten.length_le
  simp only [hlen, Nat.sub_zero] at hle
  have hbound := hm.writes.length_le
  unfold feedTurn
  dsimp only
  rw [show (decoderProcess f.dec (.ofParts f.unread f.room) f.mode).2.2.stored = o from hm.stored]
  generalize (decoderProcess f.dec (.ofParts f.unread f.room) f.mode).1 = st at hj ⊢
  generalize (decoderProcess f.dec (.ofParts f.unread f.room) f.mode).2.1 = d' at hopts hj ⊢
  have hdone (hw : q + o.length = c.text.length) : f.written ++ o = c.text :=
    hwritten.eq_text (by rw [hlen, hw])
  cases hj with
  | ended read written size =>
    simp only [turn_inr, hdone written]
    refine ⟨.ended (h.opts_eq ▸ size) fun C status hc => ?_, fun _ => ?_⟩
    · have := hceil C status (h.opts_eq ▸ hc)
      omega
    · obtain ⟨i, _, _, hlater, _⟩ := h.piece
      have hsplit := h.split hcode hlater
      have hall := flatten_split hcode i
      rw [hlater]
      exact List.eq_nil_of_length_eq_zero (by omega)
  | missized read written expected size =>
    simp only [turn_inr, hdone written]
    refine ⟨.missized (h.opts_eq ▸ expected) (h.opts_eq ▸ size) fun C status hc => ?_, by simp⟩
    have := hceil C status (h.opts_eq ▸ hc)
    omega
  | hungry standing more empty stall =>
    simp only [Buffer.unread_ofParts] at empty
    obtain ⟨i, h1, hi, hlater⟩ := h.lt_of_run more
    have hcons : f.later = chunks[i] :: chunks.drop (i + 1) := by
      rw [hlater, List.drop_eq_getElem_cons hi]
    rw [hcons]
    simp only [turn_inl]
    have hend := hused hlater empty
    refine ⟨⟨p + u, q + o.length, h.idles, ⟨_, standing (.inl h.idles), by simp [more]⟩, hopts.trans h.opts_eq,
      ⟨i + 1, by omega, by omega, rfl, hend.ge⟩, ?_, hwritten, hlen⟩, ?_,
      .inr ⟨i, hi, hlater, rfl, fun _ hs => ?_⟩⟩
    · rw [hunread, ← hrest, empty, hcons, List.nil_append, List.nil_append, List.flatten_cons]
    · simp only [feedMeasure, hcons, List.length_cons, hlen, h.count]
      split_ifs <;> omega
    · rw [← hend] at hs
      exact h.opts_eq ▸ (stall hs).2
  | full standing noRoom owing =>
    simp only [Buffer.availOut_ofParts] at noRoom
    have hfresh : (∃ p' q', k.Fed chunks opts { dec := d', unread := f.unread.drop u
                                                later := f.later, room := ws.size f.calls
                                                calls := f.calls + 1, written := f.written ++ o }
          p' q') ∧
        feedMeasure c { dec := d', unread := f.unread.drop u, later := f.later
                        room := ws.size f.calls, calls := f.calls + 1, written := f.written ++ o } <
          feedMeasure c f := by
      refine ⟨⟨p + u, q + o.length, h.idles, ⟨_, standing (.inl h.idles), f.later_of_finish⟩, hopts.trans h.opts_eq,
        hpiece, hrest, hwritten, hlen⟩, ?_⟩
      have hpos := ws.pos f.calls
      simp only [feedMeasure, hlen, h.count]
      split_ifs <;> omega
    rw [hunread]
    cases hcons : f.later with
    | nil =>
      rw [hcons] at hfresh
      exact ⟨hfresh.1, hfresh.2, .inl hcons.symm⟩
    | cons chunk later =>
      dsimp only
      split_ifs with hrefill
      · obtain ⟨i, h1, hi, hlater⟩ := h.lt_of_run (by simp [Feed.mode, hcons])
        rw [hlater, List.drop_eq_getElem_cons hi] at hcons
        obtain ⟨rfl, rfl⟩ := List.cons.inj hcons
        rw [hlater, List.drop_eq_getElem_cons hi] at hrest
        have hnil : f.unread.drop u = [] := by simpa [hunread] using hrefill.2
        refine ⟨⟨p + u, q + o.length, h.idles,
          ⟨_, standing (.inl h.idles), by simp [Feed.mode, hlater, hi]⟩,
          hopts.trans h.opts_eq, ⟨i + 1, by omega, by omega, rfl, (hused hlater hnil).ge⟩, ?_, hwritten, hlen⟩, ?_,
          .inr ⟨i, hi, hlater, rfl, fun hws => ?_⟩⟩
        · rwa [List.flatten_cons, ← List.append_assoc] at hrest
        · simp only [feedMeasure, hlater, List.length_drop, hlen, h.count]
          split_ifs <;> omega
        · rw [hws] at hrefill
          exact absurd hrefill.1 (by simp)
      · rw [hcons] at hfresh
        exact ⟨hfresh.1, hfresh.2, .inl hcons.symm⟩
  | @capped C status ceiling spent owing =>
    have hend : k.Fair chunks opts ⟨st, f.written ++ o⟩ := by
      refine .capped (h.opts_eq ▸ ceiling) (by rw [hlen, spent]) hwritten ?_
      simp only [Buffer.unread_ofParts] at owing
      rcases owing with hlt | ⟨hnil, hmore, hstall⟩
      · exact .inl (by omega)
      · obtain ⟨i, h1, hi, hlater⟩ := h.lt_of_run hmore
        rcases Nat.lt_or_ge C.toNat c.text.length with hlt | hge
        · exact .inl hlt
        · rw [List.drop_eq_nil_iff] at hnil
          refine .inr ⟨by omega, p + u, ⟨i, h1, hi, ?_⟩, hstall⟩
          rw [← h.split hcode hlater]
          omega
    rcases DecoderOpts.ceiling_status ceiling with rfl | rfl <;> exact ⟨hend, by simp⟩

theorem feedTurn_fails (ws : Windows) (h : k.Fed chunks opts f p q) (hf : k.FailsAt f) :
    ∃ r, feedTurn ws f = .inr r ∧ r.status.isError := by
  obtain ⟨last, hstand, hlast⟩ := h.standing
  have herr := process_fails hstand (checkBuffer_ofParts ..)
    (fun hl => by simp [Feed.mode, hlast hl]) (Fed.mode_ne f) (by simpa using h.shows) hf
  unfold feedTurn
  dsimp only
  split
  case h_4 => exact ⟨_, rfl, herr⟩
  all_goals
    next heq _ =>
      rw [heq] at herr
      cases herr

theorem Fed.reaches (ws : Windows) (hcode : chunks.flatten = c.code) {f f' : Feed v}
    (h : ∃ p q, k.Fed chunks opts f p q) (hr : Reaches (feedTurn ws) f f') :
    ∃ p q, k.Fed chunks opts f' p q := by
  refine hr.invariant (fun f => ∃ p q, k.Fed chunks opts f p q) (fun g g' hg hturn => ?_) h
  obtain ⟨p, q, hg⟩ := hg
  by_cases hf : k.FailsAt g
  · obtain ⟨r, hr, _⟩ := feedTurn_fails ws hg hf
    rw [hr] at hturn
    cases hturn
  · have := feedTurn_fed ws hcode hg hf
    rw [hturn] at this
    exact this.1

theorem fed_start {d : Decoder v} (hidle : k.Idles) (h : k.Standing d false 0 0) (hcode : chunks.flatten = c.code)
    (hne : chunks ≠ []) (room : ℕ) : k.Fed chunks d.opts (Feed.start d room chunks) 0 0 := by
  cases chunks with
  | nil => exact absurd rfl hne
  | cons chunk later =>
    exact ⟨hidle, ⟨false, h, by simp⟩, rfl, ⟨1, le_rfl, by simp, rfl, by simp⟩, by simpa [Feed.start] using hcode, .nil, rfl⟩

variable {d : Decoder v}

/-- A caller none of whose calls fails reaches a fair end after finitely many of them. -/
theorem feed_fair (ws : Windows) (hidle : k.Idles) (h : k.Standing d false 0 0) (hcode : chunks.flatten = c.code)
    (hne : chunks ≠ []) (room : ℕ)
    (hf : ∀ f, Reaches (feedTurn ws) (Feed.start d room chunks) f → ¬ k.FailsAt f) :
    ∃ r, Returns (feedTurn ws) (Feed.start d room chunks) r ∧ k.Fair chunks d.opts r := by
  refine returns_of_measure (fun f => (∃ p q, k.Fed chunks d.opts f p q) ∧
      Reaches (feedTurn ws) (Feed.start d room chunks) f) (feedMeasure c) ?_ ⟨⟨_, _, fed_start hidle h hcode hne room⟩, .refl⟩
  rintro f ⟨⟨p, q, hfed⟩, hr⟩
  have hturn := feedTurn_fed ws hcode hfed (hf f hr)
  cases hft : feedTurn ws f with
  | inl f' =>
    rw [hft] at hturn
    exact ⟨⟨hturn.1, hr.tail hft⟩, hturn.2.1⟩
  | inr r =>
    rw [hft] at hturn
    exact hturn.1

theorem feed_fails (ws : Windows) (hidle : k.Idles) (h : k.Standing d false 0 0) (hcode : chunks.flatten = c.code)
    (hne : chunks ≠ []) {room : ℕ} {f : Feed v}
    (hr : Reaches (feedTurn ws) (Feed.start d room chunks) f) (hf : k.FailsAt f) :
    ∃ r, Returns (feedTurn ws) (Feed.start d room chunks) r ∧ r.status.isError := by
  obtain ⟨p, q, hfed⟩ := Fed.reaches ws hcode ⟨_, _, fed_start hidle h hcode hne room⟩ hr
  obtain ⟨r, hturn, herr⟩ := feedTurn_fails ws hfed hf
  exact ⟨r, ⟨f, hr, hturn⟩, herr⟩

/-- Under a ceiling that the text meets exactly, no caller with a fresh window for every full
one gets past a boundary where the decoder stalls. -/
theorem feed_stalled (ws : Windows) (hws : ∀ n, ws.refill n = false) (hidle : k.Idles)
    (h : k.Standing d false 0 0) (hcode : chunks.flatten = c.code)
    (hne : chunks ≠ []) (room : ℕ) {C : UInt64} {status : Status}
    (hceil : d.opts.ceiling = some (C, status)) (hC : C.toNat = c.text.length)
    (hstall : ∃ p, Boundary chunks p ∧ k.Stall p) {r : FeedEnd}
    (hr : Returns (feedTurn ws) (Feed.start d room chunks) r) : r.status ≠ .streamEnd := by
  obtain ⟨_, ⟨i, hi1, hi, rfl⟩, hstall⟩ := hstall
  obtain ⟨f, hreach, hturn⟩ := hr
  -- the caller's buffer is never past the one that ends at the boundary
  have hinv : (∃ p q, k.Fed chunks d.opts f p q) ∧ ∃ j ≤ i, f.later = chunks.drop j := by
    refine hreach.invariant (fun f => (∃ p q, k.Fed chunks d.opts f p q) ∧
      ∃ j ≤ i, f.later = chunks.drop j) (fun g g' hg hgturn => ?_)
      ⟨⟨_, _, fed_start hidle h hcode hne room⟩, 1, hi1, ?_⟩
    · refine ⟨Fed.reaches ws hcode hg.1 (.single hgturn), ?_⟩
      obtain ⟨⟨p, q, hfed⟩, j, hj, hlater⟩ := hg
      by_cases hf : k.FailsAt g
      · obtain ⟨r, hr, _⟩ := feedTurn_fails ws hfed hf
        rw [hr] at hgturn
        cases hgturn
      have hpass := feedTurn_fed ws hcode hfed hf
      rw [hgturn] at hpass
      obtain ⟨_, _, hsame | ⟨j', hj', hlater', hnext, hpast⟩⟩ := hpass
      · exact ⟨j, hj, hsame.trans hlater⟩
      · have hjj : j = j' := by
          have := congrArg List.length (hlater.symm.trans hlater')
          simp only [List.length_drop] at this
          omega
        subst hjj
        refine ⟨j + 1, ?_, hnext⟩
        by_contra hlt
        obtain rfl : j = i := by omega
        have := hpast hws hstall C status hceil
        omega
    · cases chunks with
      | nil => exact absurd rfl hne
      | cons chunk later => rfl
  obtain ⟨⟨p, q, hfed⟩, j, hj, hlater⟩ := hinv
  by_cases hf : k.FailsAt f
  · obtain ⟨r', hr', herr⟩ := feedTurn_fails ws hfed hf
    rw [hr'] at hturn
    cases hturn
    intro hend
    rw [hend] at herr
    cases herr
  · have hend := feedTurn_fed ws hcode hfed hf
    rw [hturn] at hend
    intro hst
    have hnil := hend.2 hst
    have hsplit := flatten_split hcode i
    have hlt := k.stall_lt hstall
    have hsub : (chunks.drop i).flatten = [] := by
      rw [hlater, ← List.take_append_drop (i - j) (chunks.drop j), List.flatten_append,
        List.drop_drop, show j + (i - j) = i by omega] at hnil
      exact (List.append_eq_nil_iff.mp hnil).2
    rw [hsub] at hsplit
    simp only [List.length_nil] at hsplit
    omega

end StreamDecoder

end Zukomp
