import Mathlib.Data.List.GetD
import Zukomp.Core.Renewal
import Zukomp.Deflate.Encode

/-! # Resets of the DEFLATE family

`zu_int_deflate_reset` leaves the header and trailer bytes of the stream before, and the
engine to its own reset or, at another level, to a new init. Nothing reads the stale bytes
before they are written over.
-/

namespace Zukomp

open Library

/-- What miniz documents of its init and reset. `At level z` says that `z` was made at the
level, and `Same` is what no call can tell apart. -/
structure MzStream.Restarts (E : MzStream) where
  Same : E.State → E.State → Prop
  At : ℤ → E.State → Prop
  refl : ∀ z, Same z z
  init_status : ∀ level, (E.init level).1 ≠ .bufError
  init : ∀ {level}, (E.init level).1 = .ok → At level (E.init level).2
  process_at : ∀ {level z} input room flush, At level z →
    At level (E.process z input room flush).state
  reset_at : ∀ {level z}, At level z → At level (E.reset z).2
  restores : ∀ {level z}, At level z → (E.reset z).1 = .ok → (E.init level).1 = .ok →
    Same (E.reset z).2 (E.init level).2
  process : ∀ {z z'} input room flush, Same z z' →
    (E.process z input room flush).status = (E.process z' input room flush).status ∧
      (E.process z input room flush).used = (E.process z' input room flush).used ∧
      (E.process z input room flush).out = (E.process z' input room flush).out ∧
      Same (E.process z input room flush).state (E.process z' input room flush).state
  reset : ∀ {z z'}, Same z z' → (E.reset z).1 = (E.reset z').1 ∧ Same (E.reset z).2 (E.reset z').2

variable {E : MzStream} (R : E.Restarts) (wrap : WrapKind) (encoder : Bool) (level : ℤ)

/-- What never changes in a stream of the family. -/
structure Fits (s : DeflateState E) : Prop where
  encoder_eq : s.encoder = encoder
  wrap_eq : s.wrap = wrap
  level_eq : s.level = level
  at_ : R.At level s.mz
  hdrLen : s.hdrLen = hdrLength wrap
  tailLen : s.tailLen = tailLength wrap
  hdr : s.hdr.length = gzipHeaderLen
  tail : s.tail.length = 8
  flags : encoder = true → s.decFlags = 0
  unwrapped : wrap = .none → s.state ≠ .header ∧ s.state ≠ .trailer

/-- Streams that differ in bytes nothing will read, and in what the engine cannot tell. -/
structure Alike (s t : DeflateState E) : Prop where
  left : Fits R wrap encoder level s
  right : Fits R wrap encoder level t
  mz : R.Same s.mz t.mz
  rest : t = { s with mz := t.mz, hdr := t.hdr, tail := t.tail, gz := t.gz }
  hdr : ∀ i, (if encoder then i < hdrLength wrap else i < s.hdrPos) →
    s.hdr.getD i 0 = t.hdr.getD i 0
  tail : ∀ i, (if encoder then s.state = .trailer ∧ i < tailLength wrap else i < s.tailPos) →
    s.tail.getD i 0 = t.tail.getD i 0
  gz : encoder = false → wrap = .gzip → s.gz = t.gz

variable {R wrap encoder level}

theorem getD_set_congr {l l' : List UInt8} (hlen : l.length = l'.length) {k : ℕ} (b : UInt8)
    (h : ∀ i, i < k → l.getD i 0 = l'.getD i 0) (i : ℕ) (hi : i < k + 1) :
    (l.set k b).getD i 0 = (l'.set k b).getD i 0 := by
  simp only [List.getD_eq_getElem?_getD, List.getElem?_set, hlen] at h ⊢
  split_ifs
  · rfl
  · rfl
  · exact h i (by omega)

/-- The result of a turn, or of a call, that goes alike in both. -/
abbrev AlikeTurn (R : E.Restarts) (wrap : WrapKind) (encoder : Bool) (level : ℤ) :
    Next E → Next E → Prop :=
  Sum.LiftRel (fun x y => Alike R wrap encoder level x.1 y.1 ∧ x.2 = y.2)
    (SameResult (Alike R wrap encoder level))

variable {s t : DeflateState E}

theorem Alike.update (h : Alike R wrap encoder level s t) {state : WrapState} {hdrPos tailPos : ℕ}
    (called : Bool) (sum : UInt32) (length : UInt64) (probe : Bool)
    (hstate : wrap = .none → state ≠ .header ∧ state ≠ .trailer)
    (hhdr : encoder = false → hdrPos ≤ s.hdrPos)
    (htail : if encoder then state = .trailer → s.state = .trailer else tailPos ≤ s.tailPos) :
    Alike R wrap encoder level
      { s with mzCalled := called, state := state, hdrPos := hdrPos, tailPos := tailPos
               checksum := sum, uncompressed := length, probeMagic := probe }
      { t with mzCalled := called, state := state, hdrPos := hdrPos, tailPos := tailPos
               checksum := sum, uncompressed := length, probeMagic := probe } := by
  refine ⟨{ h.left with unwrapped := hstate }, { h.right with unwrapped := hstate }, h.mz, ?_, ?_,
    ?_, h.gz⟩
  · have hrest := congrArg (fun t : DeflateState E => { t with
      mzCalled := called, state := state, hdrPos := hdrPos, tailPos := tailPos
      checksum := sum, uncompressed := length, probeMagic := probe }) h.rest
    exact hrest
  · intro i hi
    refine h.hdr i ?_
    cases encoder with
    | true => exact hi
    | false => exact lt_of_lt_of_le hi (hhdr rfl)
  · intro i hi
    refine h.tail i ?_
    cases encoder with
    | true => exact ⟨htail hi.1, hi.2⟩
    | false => exact lt_of_lt_of_le hi htail

theorem Alike.eq (h : Alike R wrap encoder level s t) :
    ∃ m hdr tail gz, t = { s with mz := m, hdr := hdr, tail := tail, gz := gz } :=
  ⟨_, _, _, _, h.rest⟩

theorem Alike.move (h : Alike R wrap encoder level s t) {state : WrapState}
    (hheader : state ≠ .header) (htrailer : state ≠ .trailer) (probe : Bool) :
    Alike R wrap encoder level { s with state := state, probeMagic := probe }
      { t with state := state, probeMagic := probe } := by
  obtain ⟨m, hdr, tail, gz, rfl⟩ := h.eq
  refine h.update s.mzCalled s.checksum s.uncompressed probe
    (fun _ => ⟨hheader, htrailer⟩) (fun _ => le_rfl) ?_
  split_ifs
  · exact fun h => absurd h htrailer
  · exact le_rfl

theorem Alike.hdr_written (h : Alike R wrap encoder level s t) (henc : encoder = true) {i : ℕ}
    (hi : i < s.hdrLen) : s.hdr.getD i 0 = t.hdr.getD i 0 :=
  h.hdr i (by rw [if_pos henc, ← h.left.hdrLen]; exact hi)

theorem Alike.hdr_read (h : Alike R wrap encoder level s t) (henc : encoder = false) {i : ℕ}
    (hi : i < s.hdrPos) : s.hdr.getD i 0 = t.hdr.getD i 0 :=
  h.hdr i (by rw [if_neg (by simp [henc])]; exact hi)

theorem Alike.tail_written (h : Alike R wrap encoder level s t) (henc : encoder = true)
    (hs : s.state = .trailer) {i : ℕ} (hi : i < s.tailLen) : s.tail.getD i 0 = t.tail.getD i 0 :=
  h.tail i (by rw [if_pos henc, ← h.left.tailLen]; exact ⟨hs, hi⟩)

theorem Alike.tail_read (h : Alike R wrap encoder level s t) (henc : encoder = false) {i : ℕ}
    (hi : i < s.tailPos) : s.tail.getD i 0 = t.tail.getD i 0 :=
  h.tail i (by rw [if_neg (by simp [henc])]; exact hi)

theorem Alike.readHdr (h : Alike R wrap encoder level s t) (henc : encoder = false) (b : UInt8) :
    Alike R wrap encoder level { s with hdr := s.hdr.set s.hdrPos b, hdrPos := s.hdrPos + 1 }
      { t with hdr := t.hdr.set t.hdrPos b, hdrPos := t.hdrPos + 1 } := by
  obtain ⟨m, hdr, tail, gz, rfl⟩ := h.eq
  subst henc
  refine ⟨{ h.left with hdr := ?_ }, { h.right with hdr := ?_ }, h.mz, rfl, ?_, h.tail, h.gz⟩
  · rw [List.length_set]
    exact h.left.hdr
  · rw [List.length_set]
    exact h.right.hdr
  · exact getD_set_congr (h.left.hdr.trans h.right.hdr.symm) b fun i hi => h.hdr_read rfl hi

theorem Alike.readTail (h : Alike R wrap encoder level s t) (henc : encoder = false) (b : UInt8) :
    Alike R wrap encoder level { s with tail := s.tail.set s.tailPos b, tailPos := s.tailPos + 1 }
      { t with tail := t.tail.set t.tailPos b, tailPos := t.tailPos + 1 } := by
  obtain ⟨m, hdr, tail, gz, rfl⟩ := h.eq
  subst henc
  refine ⟨{ h.left with tail := ?_ }, { h.right with tail := ?_ }, h.mz, rfl, h.hdr, ?_, h.gz⟩
  · rw [List.length_set]
    exact h.left.tail
  · rw [List.length_set]
    exact h.right.tail
  · exact getD_set_congr (h.left.tail.trans h.right.tail.symm) b fun i hi => h.tail_read rfl hi

theorem headerStep_alike (h : Alike R wrap encoder level s t) (w : Window)
    (mode : Flush) (hs : s.state = .header) :
    AlikeTurn R wrap encoder level (headerStep s w mode) (headerStep t w mode) := by
  have hbody : Alike R wrap encoder level { s with state := .body } { t with state := .body } := by
    obtain ⟨m, hdr, tail, gz, rfl⟩ := h.eq
    exact h.move (by simp) (by simp) s.probeMagic
  obtain ⟨m, hdr, tail, gz, rfl⟩ := h.eq
  have henc' := h.left.encoder_eq
  have hwrap' := h.left.wrap_eq
  unfold headerStep
  dsimp only at hbody ⊢
  by_cases henc : s.encoder = true
  · rw [if_pos henc, if_pos henc]
    by_cases hpos : s.hdrPos < s.hdrLen
    · rw [if_pos hpos, if_pos hpos, h.hdr_written (henc' ▸ henc) hpos]
      split_ifs
      · exact .inr ⟨rfl, h, rfl⟩
      · refine .inl ⟨h.update s.mzCalled s.checksum s.uncompressed s.probeMagic
          h.left.unwrapped (fun hd => ?_) ?_, rfl⟩
        · rw [← henc', henc] at hd
          cases hd
        · rw [if_pos (henc' ▸ henc)]
          exact id
    · rw [if_neg hpos, if_neg hpos]
      exact .inl ⟨hbody, rfl⟩
  rw [if_neg henc, if_neg henc]
  have hdec : encoder = false := henc' ▸ by simpa using henc
  by_cases hgzip : s.wrap = .gzip
  · rw [if_pos hgzip, if_pos hgzip]
    have hgz : s.gz = gz := h.gz hdec (hwrap' ▸ hgzip)
    have hfed (gz' : GzipHeader) : Alike R wrap encoder level { s with gz := gz' }
        { s with mz := m, hdr := hdr, tail := tail, gz := gz' } :=
      ⟨{ h.left with }, { h.right with }, h.mz, rfl, h.hdr, h.tail, fun _ _ => rfl⟩
    cases w.input with
    | nil => exact .inr ⟨rfl, h, rfl⟩
    | cons b rest =>
      dsimp only
      rw [← hgz]
      rcases s.gz.feed b with ⟨st, done, gz'⟩
      cases st with
      | ok =>
        cases done with
        | true => exact .inl ⟨(hfed gz').move (by simp) (by simp) s.probeMagic, rfl⟩
        | false => exact .inl ⟨hfed gz', rfl⟩
      | _ => exact .inr ⟨rfl, hfed gz', rfl⟩
  · rw [if_neg hgzip, if_neg hgzip]
    by_cases hpos : s.hdrPos < s.hdrLen
    · rw [if_pos hpos, if_pos hpos]
      cases w.input with
      | nil => exact .inr ⟨rfl, h, rfl⟩
      | cons b rest => exact .inl ⟨h.readHdr hdec b, rfl⟩
    · rw [if_neg hpos, if_neg hpos]
      -- both bytes of the header have been read
      have hcheck : zlibCheckHeader hdr = zlibCheckHeader s.hdr := by
        have hread : 2 ≤ s.hdrPos := by
          rw [h.left.hdrLen] at hpos
          cases wrap with
          | none => exact absurd hs (h.left.unwrapped rfl).1
          | zlib => exact not_lt.mp hpos
          | gzip => exact absurd hwrap' hgzip
        unfold zlibCheckHeader
        rw [h.hdr_read hdec (show 0 < s.hdrPos by omega),
          h.hdr_read hdec (show 1 < s.hdrPos by omega)]
      rw [hcheck]
      split_ifs
      · exact .inr ⟨rfl, h, rfl⟩
      · exact .inl ⟨hbody, rfl⟩

theorem afterEngine_alike (h : Alike R wrap encoder level s t) (w : Window)
    {r r' : MzStep E.State} (hused : r.used = r'.used) (hout : r.out = r'.out)
    (hstate : R.Same r.state r'.state) (hat : R.At level r.state) (hat' : R.At level r'.state) :
    Alike R wrap encoder level (afterEngine s w r) (afterEngine t w r') := by
  obtain ⟨m, hdr, tail, gz, rfl⟩ := h.eq
  have hcovered : covered { s with mz := m, hdr := hdr, tail := tail, gz := gz } w r' =
      covered s w r := by
    unfold covered
    rw [hused, hout]
  have hcalled : Alike R wrap encoder level { s with mz := r.state }
      { s with mz := r'.state, hdr := hdr, tail := tail, gz := gz } :=
    ⟨{ h.left with at_ := hat }, { h.right with at_ := hat' }, hstate, rfl, h.hdr, h.tail, h.gz⟩
  have hpos : if encoder then s.state = .trailer → s.state = .trailer else s.tailPos ≤ s.tailPos := by
    split_ifs
    · exact id
    · exact le_rfl
  unfold afterEngine
  dsimp only
  split_ifs
  · exact hcalled.update true s.checksum s.uncompressed s.probeMagic h.left.unwrapped
      (fun _ => le_rfl) hpos
  · have hcovered' : covered { s with mz := r'.state, mzCalled := true, hdr := hdr, tail := tail
                                      gz := gz } w r' =
        covered { s with mz := r.state, mzCalled := true } w r := hcovered
    rw [hcovered']
    exact hcalled.update true _ _ s.probeMagic h.left.unwrapped (fun _ => le_rfl) hpos

theorem trailerBytes_length (wrap : WrapKind) (hwrap : wrap ≠ .none) (sum : UInt32)
    (length : UInt64) : (trailerBytes wrap sum length).length = tailLength wrap := by
  cases wrap with
  | none => exact absurd rfl hwrap
  | zlib => rfl
  | gzip => rfl

theorem enterTrailer_alike (h : Alike R wrap encoder level s t) (hwrap : wrap ≠ .none) :
    Alike R wrap encoder level (enterTrailer s) (enterTrailer t) := by
  obtain ⟨m, hdr, tail, gz, rfl⟩ := h.eq
  have hbytes := trailerBytes_length wrap hwrap s.checksum s.uncompressed
  rw [← h.left.wrap_eq] at hbytes
  have hle : tailLength s.wrap ≤ 8 := by cases s.wrap <;> simp [tailLength]
  have hlen (tail : List UInt8) (ht : tail.length = 8) :
      (if s.encoder then trailerBytes s.wrap s.checksum s.uncompressed ++ tail.drop s.tailLen
        else tail).length = 8 := by
    split_ifs
    · rw [List.length_append, hbytes, List.length_drop, ht, h.left.tailLen, ← h.left.wrap_eq]
      omega
    · exact ht
  refine ⟨{ h.left with tail := hlen _ h.left.tail, unwrapped := fun hn => absurd hn hwrap },
    { h.right with tail := hlen _ h.right.tail, unwrapped := fun hn => absurd hn hwrap }, h.mz, rfl,
    h.hdr, fun i hi => ?_, h.gz⟩
  unfold enterTrailer
  dsimp only
  by_cases henc : s.encoder = true
  · rw [if_pos henc, if_pos henc]
    have hi : i < tailLength wrap := by
      rw [← h.left.encoder_eq, if_pos henc] at hi
      exact hi.2
    rw [List.getD_append _ _ _ _ (by rw [hbytes, h.left.wrap_eq]; exact hi),
      List.getD_append _ _ _ _ (by rw [hbytes, h.left.wrap_eq]; exact hi)]
  · rw [← h.left.encoder_eq, if_neg henc] at hi
    exact absurd hi (Nat.not_lt_zero i)

theorem bodyStep_alike (h : Alike R wrap encoder level s t) (w : Window) (mode : Flush) :
    AlikeTurn R wrap encoder level (bodyStep s w mode) (bodyStep t w mode) := by
  have hflush : engineFlush t mode = engineFlush s mode := by
    obtain ⟨m, hdr, tail, gz, rfl⟩ := h.eq
    rfl
  obtain ⟨hst, hused, hout, hstate⟩ := R.process (w.input.take mzClamp) (min w.room mzClamp)
    (engineFlush s mode) h.mz
  have hafter : Alike R wrap encoder level (afterEngine s w (engineCall s w mode))
      (afterEngine t w (engineCall t w mode)) := by
    refine afterEngine_alike h w ?_ ?_ ?_ (R.process_at _ _ _ h.left.at_)
      (R.process_at _ _ _ h.right.at_)
    all_goals
      unfold engineCall
      rw [hflush]
      assumption
  have hroom : t.encoder = s.encoder := h.right.encoder_eq.trans h.left.encoder_eq.symm
  have hstalled (w' : Window) : stalled (afterEngine t w (engineCall t w mode)) w' mode =
      stalled (afterEngine s w (engineCall s w mode)) w' mode := by
    simp only [stalled, afterEngine_encoder, hroom]
  have hst : (engineCall t w mode).status = (engineCall s w mode).status := by
    rw [engineCall, hflush]
    exact hst.symm
  have hused : (engineCall t w mode).used = (engineCall s w mode).used := by
    rw [engineCall, hflush]
    exact hused.symm
  have hout : (engineCall t w mode).out = (engineCall s w mode).out := by
    rw [engineCall, hflush]
    exact hout.symm
  unfold bodyStep
  dsimp only
  rw [hroom, hst, hused, hout, hstalled]
  generalize afterEngine s w (engineCall s w mode) = s₁ at hafter ⊢
  generalize afterEngine t w (engineCall t w mode) = t₁ at hafter ⊢
  obtain ⟨m, hdr, tail, gz, rfl⟩ := hafter.eq
  split_ifs with hroom hend hwrapped hbad hidle
  · exact .inr ⟨rfl, h, rfl⟩
  · exact .inl ⟨enterTrailer_alike hafter (hafter.left.wrap_eq ▸ hwrapped), rfl⟩
  · exact .inr ⟨rfl, hafter.move (by simp) (by simp) s₁.probeMagic, rfl⟩
  · exact .inr ⟨rfl, hafter, rfl⟩
  · exact .inr ⟨rfl, hafter, rfl⟩
  · exact .inl ⟨hafter, rfl⟩

/-- A decoder starts its next stream alike. -/
theorem deflateReset_alike (h : Alike R wrap false level s t) :
    (deflateReset s levelDefault).1 = (deflateReset t levelDefault).1 ∧
      Alike R wrap false level (deflateReset s levelDefault).2 (deflateReset t levelDefault).2 := by
  obtain ⟨hst, hsame⟩ := R.reset h.mz
  have hat := R.reset_at h.left.at_
  have hat' := R.reset_at h.right.at_
  have hunwrapped : wrap = .none → firstState s.wrap ≠ .header ∧ firstState s.wrap ≠ .trailer := by
    rintro rfl
    rw [h.left.wrap_eq]
    exact ⟨by simp [firstState], by simp [firstState]⟩
  obtain ⟨m, hdr, tail, gz, rfl⟩ := h.eq
  dsimp only at hst hsame hat'
  rcases deflateReset_decoder h.left.encoder_eq with ⟨z, hz, heq⟩ | ⟨z, hz, heq⟩ <;>
    rcases deflateReset_decoder h.right.encoder_eq with ⟨z', hz', heq'⟩ | ⟨z', hz', heq'⟩ <;>
    dsimp only at hz' <;> rw [hz, hz'] at hst hsame <;> rw [hz] at hat <;> rw [hz'] at hat' <;>
    rw [heq, heq']
  · refine ⟨rfl, { h.left with at_ := hat, unwrapped := hunwrapped },
      { h.right with at_ := hat', unwrapped := hunwrapped }, hsame, rfl, ?_, ?_, fun _ hgzip => ?_⟩
    · exact fun i hi => absurd hi (Nat.not_lt_zero i)
    · exact fun i hi => absurd hi (Nat.not_lt_zero i)
    · have hwrap : s.wrap = .gzip := h.left.wrap_eq.trans hgzip
      dsimp only
      rw [if_pos hwrap, if_pos hwrap]
  · cases hst
  · cases hst
  · exact ⟨rfl, { h.left with at_ := hat }, { h.right with at_ := hat' }, hsame, rfl, h.hdr, h.tail,
      h.gz⟩

theorem nextMember_alike (h : Alike R wrap encoder level s t) (hc : concatenates s = true)
    (w : Window) (held : Bool) :
    AlikeTurn R wrap encoder level (nextMember s w held) (nextMember t w held) := by
  simp only [concatenates, decide_eq_true_eq] at hc
  obtain ⟨hgzip, -, hdec⟩ := hc
  obtain rfl : encoder = false := h.left.encoder_eq.symm.trans hdec
  obtain ⟨hst, hnext⟩ := deflateReset_alike h
  have hwrap : wrap = .gzip := h.left.wrap_eq.symm.trans hgzip
  unfold nextMember
  rcases hr : deflateReset s levelDefault with ⟨st, s₁⟩
  rcases hr' : deflateReset t levelDefault with ⟨st', t₁⟩
  rw [hr, hr'] at hst hnext
  simp only at hst hnext
  subst hst
  cases st with
  | ok =>
    dsimp only
    have hgz := hnext.gz rfl hwrap
    obtain ⟨m, hdr, tail, gz, rfl⟩ := hnext.eq
    dsimp only at hgz
    subst hgz
    split_ifs
    · have hfed (gz' : GzipHeader) : Alike R wrap false level
          { s₁ with gz := gz', probeMagic := false }
          { s₁ with mz := m, hdr := hdr, tail := tail, gz := gz', probeMagic := false } :=
        ⟨{ hnext.left with }, { hnext.right with }, hnext.mz, rfl, hnext.hdr, hnext.tail,
          fun _ _ => rfl⟩
      rcases s₁.gz.feed 0x1F with ⟨st, done, gz'⟩
      cases st with
      | ok => exact .inl ⟨hfed gz', rfl⟩
      | _ => exact .inr ⟨rfl, hfed gz', rfl⟩
    · exact .inl ⟨hnext, rfl⟩
  | _ => exact .inr ⟨rfl, hnext, rfl⟩

theorem memberEndStep_alike (h : Alike R wrap encoder level s t) (w : Window) (mode : Flush)
    (hs : s.state = .memberEnd) :
    AlikeTurn R wrap encoder level (memberEndStep s w mode) (memberEndStep t w mode) := by
  have hnext (hc : concatenates s = true) (held : Bool) := nextMember_alike h hc w held
  obtain ⟨m, hdr, tail, gz, rfl⟩ := h.eq
  have hdone (probe : Bool) := h.move (show WrapState.done ≠ .header by simp) (by simp) probe
  have hhold := h.move (show s.state ≠ .header by simp [hs]) (by simp [hs]) true
  have hfinish : AlikeTurn R wrap encoder level (finishMember s w)
      (finishMember { s with mz := m, hdr := hdr, tail := tail, gz := gz } w) := by
    unfold finishMember
    dsimp only
    split_ifs
    · exact .inr ⟨rfl, hdone false, rfl⟩
    · exact .inr ⟨rfl, hdone false, rfl⟩
    · exact .inr ⟨rfl, hdone s.probeMagic, rfl⟩
  have hconcat : concatenates { s with mz := m, hdr := hdr, tail := tail, gz := gz } =
      concatenates s := rfl
  unfold memberEndStep
  rw [hconcat]
  dsimp only at hnext ⊢
  rcases w.input with _ | ⟨b, rest⟩
  · by_cases hmore : s.encoder = false ∧ concatenates s ∧ mode ≠ .finish
    · rw [if_pos hmore]
      dsimp only
      rw [if_pos hmore]
      exact .inr ⟨rfl, h, rfl⟩
    · rw [if_neg hmore]
      dsimp only
      rw [if_neg hmore]
      exact hfinish
  · dsimp only
    by_cases hc : concatenates s = false
    · rw [if_pos hc, if_pos hc]
      exact hfinish
    rw [if_neg hc, if_neg hc]
    have hc : concatenates s = true := by simpa using hc
    by_cases hprobe : s.probeMagic = false
    · rw [if_pos hprobe, if_pos hprobe]
      by_cases hb : b ≠ 0x1F
      · rw [if_pos hb, if_pos hb]
        exact .inr ⟨rfl, hdone s.probeMagic, rfl⟩
      rw [if_neg hb, if_neg hb]
      cases rest with
      | nil =>
        dsimp only
        split_ifs
        · exact .inr ⟨rfl, hdone s.probeMagic, rfl⟩
        · exact .inr ⟨rfl, hhold, rfl⟩
      | cons c rest =>
        dsimp only
        split_ifs
        · exact .inr ⟨rfl, hdone s.probeMagic, rfl⟩
        · exact hnext hc false
    · rw [if_neg hprobe, if_neg hprobe]
      split_ifs
      · exact .inr ⟨rfl, hdone false, rfl⟩
      · exact hnext hc true

theorem checkTail_alike (h : Alike R wrap encoder level s t) (henc : encoder = false)
    (hs : s.state = .trailer) (hpos : s.tailLen ≤ s.tailPos) : checkTail t = checkTail s := by
  have hlen := h.left.tailLen
  have hwrap := h.left.wrap_eq
  have hread {i : ℕ} (hi : i < s.tailPos) := h.tail_read henc hi
  obtain ⟨m, hdr, tail, gz, rfl⟩ := h.eq
  unfold checkTail readBE readLE
  dsimp only
  rw [hlen] at hpos
  cases wrap with
  | none => exact absurd hs (h.left.unwrapped rfl).2
  | zlib =>
    have hfour : 4 ≤ s.tailPos := hpos
    rw [if_pos hwrap, if_pos hwrap, hread (i := 0) (by omega), hread (i := 1) (by omega),
      hread (i := 2) (by omega), hread (i := 3) (by omega)]
  | gzip =>
    have height : 8 ≤ s.tailPos := hpos
    have hother : ¬ s.wrap = .zlib := by simp [hwrap]
    simp only [if_neg hother, List.getD_eq_getElem?_getD, List.getElem?_drop] at hread ⊢
    rw [hread (i := 0) (by omega), hread (i := 1) (by omega), hread (i := 2) (by omega),
      hread (i := 3) (by omega), hread (i := 4) (by omega), hread (i := 5) (by omega),
      hread (i := 6) (by omega), hread (i := 7) (by omega)]

theorem trailerStep_alike (h : Alike R wrap encoder level s t) (w : Window) (mode : Flush)
    (hs : s.state = .trailer) :
    AlikeTurn R wrap encoder level (trailerStep s w mode) (trailerStep t w mode) := by
  obtain ⟨m, hdr, tail, gz, rfl⟩ := h.eq
  have henc' := h.left.encoder_eq
  have hdone := h.move (show WrapState.done ≠ .header by simp) (by simp) s.probeMagic
  have hend := h.move (show WrapState.memberEnd ≠ .header by simp) (by simp) s.probeMagic
  unfold trailerStep
  dsimp only
  by_cases henc : s.encoder = true
  · rw [if_pos henc, if_pos henc]
    by_cases hpos : s.tailPos < s.tailLen
    · rw [if_pos hpos, if_pos hpos, h.tail_written (henc' ▸ henc) hs hpos]
      split_ifs
      · exact .inr ⟨rfl, h, rfl⟩
      · refine .inl ⟨h.update s.mzCalled s.checksum s.uncompressed s.probeMagic
          h.left.unwrapped (fun _ => le_rfl) ?_, rfl⟩
        rw [if_pos (henc' ▸ henc)]
        exact id
    · rw [if_neg hpos, if_neg hpos]
      exact .inr ⟨rfl, hdone, rfl⟩
  rw [if_neg henc, if_neg henc]
  have hdec : encoder = false := henc' ▸ by simpa using henc
  by_cases hpos : s.tailPos < s.tailLen
  · rw [if_pos hpos, if_pos hpos]
    cases w.input with
    | nil => exact .inr ⟨rfl, h, rfl⟩
    | cons b rest => exact .inl ⟨h.readTail hdec b, rfl⟩
  · rw [if_neg hpos, if_neg hpos]
    -- all of the trailer has been read
    have hcheck : checkTail { s with mz := m, hdr := hdr, tail := tail, gz := gz } = checkTail s :=
      checkTail_alike h hdec hs (not_lt.mp hpos)
    rw [hcheck]
    split_ifs
    · exact .inr ⟨rfl, h, rfl⟩
    · exact .inl ⟨hend, rfl⟩

theorem deflateStep_alike (mode : Flush) (h : Alike R wrap encoder level s t) (w : Window) :
    AlikeTurn R wrap encoder level (deflateStep mode (s, w)) (deflateStep mode (t, w)) := by
  have hstate : t.state = s.state := by
    obtain ⟨m, hdr, tail, gz, rfl⟩ := h.eq
    rfl
  unfold deflateStep
  dsimp only
  rw [hstate]
  cases hs : s.state with
  | header => exact headerStep_alike h w mode hs
  | body => exact bodyStep_alike h w mode
  | trailer => exact trailerStep_alike h w mode hs
  | memberEnd => exact memberEndStep_alike h w mode hs
  | done => exact .inr ⟨rfl, h, rfl⟩

/-- A call over such streams reads and writes the same and leaves such streams. -/
theorem deflateProcess_alike (h : Alike R wrap encoder level s t) (w : Window) (mode : Flush) :
    SameResult (Alike R wrap encoder level) (deflateProcess s w mode) (deflateProcess t w mode) := by
  have hfuel : deflateMeasure (t, w) = deflateMeasure (s, w) := by
    obtain ⟨m, hdr, tail, gz, rfl⟩ := h.eq
    rfl
  unfold deflateProcess
  rw [hfuel]
  refine runLoop_lockstep
    (fun x y : DeflateState E × Window => Alike R wrap encoder level x.1 y.1 ∧ x.2 = y.2)
    (SameResult (Alike R wrap encoder level)) ?_ ?_
    (⟨h, rfl⟩ : Alike R wrap encoder level s t ∧ w = w) _
  · intro ⟨s, w⟩ ⟨t, _⟩ ⟨h, hw⟩
    cases hw
    exact deflateStep_alike mode h w
  · intro ⟨s, w⟩ ⟨t, _⟩ ⟨h, hw⟩
    cases hw
    exact ⟨rfl, h, rfl⟩

theorem Fits.alike (h : Fits R wrap encoder level s) : Alike R wrap encoder level s s :=
  ⟨h, h, R.refl _, rfl, fun _ _ => rfl, fun _ _ => rfl, fun _ _ => rfl⟩

theorem deflateProcess_fits (h : Fits R wrap encoder level s) (w : Window) (mode : Flush) :
    Fits R wrap encoder level (deflateProcess s w mode).2.1 :=
  (deflateProcess_alike h.alike w mode).state.left

/-! ## New streams and resets -/

def resolvedLevel (level : ℤ) : ℤ := if level = levelDefault then mzDefaultLevel else level

theorem writeHdr_length (wrap : WrapKind) (encoder : Bool) (level : ℤ) {hdr : List UInt8}
    (h : hdr.length = gzipHeaderLen) : (writeHdr wrap encoder level hdr).length = gzipHeaderLen := by
  unfold writeHdr
  split
  · rw [List.length_append, List.length_drop, h]
    rfl
  · rfl
  · exact h

theorem writeHdr_getD (wrap : WrapKind) (level : ℤ) (hdr hdr' : List UInt8) {i : ℕ}
    (hi : i < hdrLength wrap) :
    (writeHdr wrap true level hdr).getD i 0 = (writeHdr wrap true level hdr').getD i 0 := by
  cases wrap with
  | none => exact absurd hi (Nat.not_lt_zero i)
  | zlib => exact (List.getD_append _ _ _ _ hi).trans (List.getD_append _ _ _ _ hi).symm
  | gzip => rfl

theorem firstState_unwrapped (wrap : WrapKind) :
    wrap = .none → firstState wrap ≠ .header ∧ firstState wrap ≠ .trailer := by
  intro h
  rw [h]
  exact ⟨by simp [firstState], by simp [firstState]⟩

theorem deflateNew_ok {decFlags : UInt32} (h : deflateNew E wrap encoder level decFlags = .ok t) :
    (E.init (resolvedLevel level)).1 = .ok ∧
      t = { mz := (E.init (resolvedLevel level)).2, mzCalled := false, encoder := encoder
            wrap := wrap, state := firstState wrap, level := resolvedLevel level
            hdr := writeHdr wrap encoder (resolvedLevel level) (List.replicate gzipHeaderLen 0)
            hdrLen := hdrLength wrap, hdrPos := 0, tail := List.replicate 8 0
            tailLen := tailLength wrap, tailPos := 0, checksum := checksumInit wrap
            uncompressed := 0, gz := gzipHeaderInit, decFlags := decFlags, probeMagic := false } := by
  unfold deflateNew at h
  dsimp only at h
  rw [← resolvedLevel] at h
  rcases heq : E.init (resolvedLevel level) with ⟨st, mz⟩
  rw [heq] at h
  cases st with
  | ok =>
    cases h
    exact ⟨rfl, rfl⟩
  | _ => cases h

theorem deflateNew_fits {decFlags : UInt32} (hflags : encoder = true → decFlags = 0)
    (h : deflateNew E wrap encoder level decFlags = .ok t) :
    Fits R wrap encoder (resolvedLevel level) t := by
  obtain ⟨hok, rfl⟩ := deflateNew_ok h
  exact ⟨rfl, rfl, rfl, R.init hok, rfl, rfl, writeHdr_length _ _ _ List.length_replicate, rfl,
    hflags, firstState_unwrapped wrap⟩

theorem engine_restarted (h : Fits R wrap encoder level s) {want : ℤ} {mz : E.State}
    (hkept : s.encoder = false → want = s.level)
    (heq : (if s.encoder ∧ want ≠ s.level then E.init want else E.reset s.mz) = (.ok, mz)) :
    R.At want mz ∧ ((E.init want).1 = .ok → R.Same mz (E.init want).2) := by
  by_cases hchange : s.encoder ∧ want ≠ s.level
  · rw [if_pos hchange] at heq
    have hat := R.init (congrArg Prod.fst heq)
    rw [heq] at hat ⊢
    exact ⟨hat, fun _ => R.refl mz⟩
  · rw [if_neg hchange] at heq
    have hwant : want = level := by
      rw [← h.level_eq]
      by_contra hne
      refine hchange ⟨?_, hne⟩
      by_contra henc
      exact hne (hkept (by simpa using henc))
    have hat := R.reset_at h.at_
    have hsame := R.restores h.at_ (congrArg Prod.fst heq)
    rw [heq] at hat hsame
    rw [hwant]
    exact ⟨hat, hsame⟩

/-- The level in force after a request, which only an encoder takes. -/
def levelForced (encoder : Bool) (level request : ℤ) : ℤ :=
  if encoder ∧ request ≠ levelDefault then request else level

/-- A reset that succeeds restarts the wrapper and the engine, at the level in force. -/
theorem deflateReset_ok (h : Fits R wrap encoder level s) {request : ℤ}
    (ok : (deflateReset s request).1 = .ok) :
    ∃ mz, R.At (levelForced encoder level request) mz ∧
      ((E.init (levelForced encoder level request)).1 = .ok →
        R.Same mz (E.init (levelForced encoder level request)).2) ∧
      (deflateReset s request).2 = { s with
        mz := mz, level := levelForced encoder level request, mzCalled := false
        checksum := checksumInit s.wrap, uncompressed := 0, hdrPos := 0, tailPos := 0
        probeMagic := false, state := firstState s.wrap
        hdr := writeHdr s.wrap s.encoder (levelForced encoder level request) s.hdr
        gz := if s.wrap = .gzip ∧ s.encoder = false then gzipHeaderInit else s.gz } := by
  have hwant : (if s.encoder ∧ request ≠ levelDefault then request else s.level) =
      levelForced encoder level request := by rw [h.encoder_eq, h.level_eq, levelForced]
  have hkept : s.encoder = false → levelForced encoder level request = s.level := by
    intro henc
    rw [← hwant, if_neg (by simp [henc])]
  unfold deflateReset at ok ⊢
  dsimp only at ok ⊢
  rw [hwant] at ok ⊢
  rcases heq : (if s.encoder ∧ levelForced encoder level request ≠ s.level then
    E.init (levelForced encoder level request) else E.reset s.mz) with ⟨st, mz⟩
  rw [heq] at ok
  cases st with
  | ok =>
    obtain ⟨hat, hsame⟩ := engine_restarted h hkept heq
    exact ⟨mz, hat, hsame, rfl⟩
  | bufError =>
    -- the one other status that maps to `ZU_OK`, which neither call returns
    split_ifs at heq
    · exact absurd (congrArg Prod.fst heq) (R.init_status _)
    · have hst := E.reset_status s.mz
      rw [heq] at hst
      simp at hst
  | _ => cases ok

theorem deflateReset_fits (h : Fits R wrap encoder level s) {request : ℤ}
    (ok : (deflateReset s request).1 = .ok) :
    Fits R wrap encoder (levelForced encoder level request) (deflateReset s request).2 := by
  obtain ⟨mz, hat, -, heq⟩ := deflateReset_ok h ok
  rw [heq]
  exact { h with
    level_eq := rfl
    at_ := hat
    hdr := writeHdr_length _ _ _ h.hdr
    unwrapped := h.wrap_eq ▸ firstState_unwrapped s.wrap }

/-- A reset that succeeds leaves a stream like a new one at the level in force. -/
theorem deflateReset_new (h : Fits R wrap encoder level s) {request level' : ℤ}
    (ok : (deflateReset s request).1 = .ok)
    (hlevel : resolvedLevel level' = levelForced encoder level request)
    (hnew : deflateNew E wrap encoder level' s.decFlags = .ok t) :
    Alike R wrap encoder (levelForced encoder level request) (deflateReset s request).2 t := by
  have hleft := deflateReset_fits h ok
  have hright := deflateNew_fits (R := R) h.flags hnew
  obtain ⟨mz, -, hsame, heq⟩ := deflateReset_ok h ok
  obtain ⟨hok, rfl⟩ := deflateNew_ok hnew
  rw [hlevel] at hok hright ⊢
  obtain ⟨henc, hwrap, -, -, hhdrLen, htailLen, -⟩ := h
  rw [heq] at hleft ⊢
  refine ⟨hleft, hright, hsame hok, ?_, fun i hi => ?_, fun i hi => ?_, ?_⟩
  · dsimp only
    rw [henc, hwrap, hhdrLen, htailLen]
  · cases encoder with
    | true =>
      dsimp only
      rw [henc, hwrap]
      exact writeHdr_getD wrap _ _ _ hi
    | false => exact absurd hi (Nat.not_lt_zero i)
  · cases encoder with
    | true =>
      have hfirst : firstState s.wrap = .trailer := hi.1
      cases hw : s.wrap <;> rw [hw] at hfirst <;> cases hfirst
    | false => exact absurd hi (Nat.not_lt_zero i)
  · intro hdec hgzip
    dsimp only
    rw [if_pos ⟨hwrap.trans hgzip, henc.trans hdec⟩]

/-- An encoder that has been reset starts with the header of the level in force. -/
theorem deflateReset_heads (h : Fits R wrap true level s) {request : ℤ}
    (ok : (deflateReset s request).1 = .ok) :
    Heads wrap (levelForced true level request) (deflateReset s request).2 [] := by
  obtain ⟨mz, -, -, heq⟩ := deflateReset_ok h ok
  rw [heq]
  refine Heads.of_start h.encoder_eq h.hdrLen ?_ rfl fun hs => ?_
  · dsimp only
    rw [h.encoder_eq, h.wrap_eq]
    exact writeHdr_take wrap _ _
  · rw [← h.wrap_eq]
    by_contra hw
    refine hs ?_
    cases hwrap : s.wrap <;> first | exact absurd hwrap hw | rfl

/-! ## The vtables renew -/

variable {M : Miniz} (codec : CodecId) (wrap)

def deflateDecoderRenewal (R : M.inflate.Restarts) :
    DecoderRenewal (deflateVtable M codec wrap) where
  process := deflateProcess
  lifted := deflateVtable_decodes M codec wrap
  Inv := Fits R wrap false mzDefaultLevel
  Same := Alike R wrap false mzDefaultLevel
  inv_new h := deflateNew_fits (by simp) h
  inv_process w mode h := deflateProcess_fits h w mode
  inv_reset {reset s} o hv h := by
    cases hv
    have hflags : Fits R wrap false mzDefaultLevel { s with decFlags := o.flags } :=
      { h with flags := by simp }
    exact (deflateReset_alike hflags.alike).2.left
  same_process w mode h := deflateProcess_alike h w mode
  renews {reset s o t} hv h ok hnew := by
    cases hv
    have hflags : Fits R wrap false mzDefaultLevel { s with decFlags := o.flags } :=
      { h with flags := by simp }
    exact deflateReset_new hflags ok rfl hnew

theorem resolvedLevel_after (level request : ℤ) :
    resolvedLevel (levelAfter level request) = levelForced true (resolvedLevel level) request := by
  unfold levelAfter levelForced
  by_cases hr : request = levelDefault
  · simp [hr]
  · simp [hr, resolvedLevel]

def deflateEncoderRenewal (R : M.deflate.Restarts) :
    EncoderRenewal (deflateVtable M codec wrap) where
  process := deflateProcess
  lifted := deflateVtable_encodes M codec wrap
  Inv level := Fits R wrap true (resolvedLevel level)
  Same s t := ∃ level, Alike R wrap true level s t
  Clean _ _ := True
  Unused _ := True
  unused_clean _ _ := trivial
  unused_new _ := trivial
  unused_reset _ _ _ := trivial
  inv_new h := deflateNew_fits (fun _ => rfl) h
  inv_process w mode h := deflateProcess_fits h w mode
  inv_reset {reset level s o} hv h ok := by
    cases hv
    rw [resolvedLevel_after]
    exact deflateReset_fits h ok
  same_process w mode h := by
    obtain ⟨level, h⟩ := h
    obtain ⟨hst, hstate, hw⟩ := deflateProcess_alike h w mode
    exact ⟨hst, ⟨level, hstate⟩, hw⟩
  renews {reset level s o o' t} hv h _ ok hnew hlevel := by
    cases hv
    have hforced : resolvedLevel o'.level = levelForced true (resolvedLevel level) o.level := by
      rw [hlevel, resolvedLevel_after]
    have hnew : deflateNew M.deflate wrap true o'.level (DeflateState.decFlags s) = .ok t := by
      rw [h.flags rfl]
      exact hnew
    exact ⟨_, deflateReset_new h ok hforced hnew⟩

end Zukomp
