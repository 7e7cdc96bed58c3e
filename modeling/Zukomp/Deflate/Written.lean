import Zukomp.Deflate.Bound
import Zukomp.Deflate.Decode
import Zukomp.Deflate.Renewal

/-! # What an encoder of the family has written

Its header, the body of all that it has taken, and a trailer over the same bytes. The engine
sees no more than a view of the input: a view that leaves bytes out is harmless as long as the
engine, told to finish, does not take the whole of it.
-/

namespace Zukomp

open Library

variable {E : MzStream} {Body : Progressive UInt8 → Prop} {wrap : WrapKind} {level : ℤ}

/-! ## The engine -/

/-- What `mz_deflate` is assumed to answer after it has taken `x` and given `y`: the body ends
under `MZ_FINISH`, with all that was shown. -/
structure DeflateStep (E : MzStream) (Body : Progressive UInt8 → Prop)
    (Sent : E.State → Bool → List UInt8 → List UInt8 → Prop) (shut : Bool)
    (x y input : List UInt8) (flush : MzFlush) (r : MzStep E.State) : Prop where
  sent : r.status ≠ .streamEnd →
    Sent r.state (shut || decide (flush = .finish ∧ r.used = input.length))
      (x ++ input.take r.used) (y ++ r.out)
  ended : r.status = .streamEnd → flush = .finish ∧ r.used = input.length ∧
    ∃ c, Body c ∧ c.text = x ++ input ∧ c.code = y ++ r.out

/-- miniz's compressor makes a body of all that it takes. `Sent z shut x y` says that `z` has
taken `x` and given `y`; a `shut` one has been told to finish and was left nothing to take, and
from then on nothing more can be appended. -/
structure MzStream.Deflates (E : MzStream) (Body : Progressive UInt8 → Prop) where
  Sent : E.State → Bool → List UInt8 → List UInt8 → Prop
  init : ∀ level, (E.init level).1 = .ok → Sent (E.init level).2 false [] []
  process : ∀ {z shut x y input} (room : ℕ) (flush : MzFlush), Sent z shut x y →
    (shut = true → input = []) →
      DeflateStep E Body Sent shut x y input flush (E.process z input room flush)

theorem DeflateStep.imp {Body' : Progressive UInt8 → Prop} (himp : ∀ c, Body c → Body' c)
    {Sent : E.State → Bool → List UInt8 → List UInt8 → Prop} {shut : Bool}
    {x y input : List UInt8} {flush : MzFlush} {r : MzStep E.State}
    (h : DeflateStep E Body Sent shut x y input flush r) :
    DeflateStep E Body' Sent shut x y input flush r where
  sent := h.sent
  ended hend := by
    obtain ⟨hflush, hused, c, hbody, htext, hcode⟩ := h.ended hend
    exact ⟨hflush, hused, c, himp c hbody, htext, hcode⟩

/-- Fewer demands on the bodies. -/
def MzStream.Deflates.imp {Body' : Progressive UInt8 → Prop} (D : E.Deflates Body)
    (himp : ∀ c, Body c → Body' c) : E.Deflates Body' where
  Sent := D.Sent
  init := D.init
  process room flush h hshut := (D.process room flush h hshut).imp himp

/-- Under `ZU_FINISH`, the engine takes the whole of a view that leaves bytes out. -/
def Cut (mode : Flush) (x : DeflateState E × Window) : Prop :=
  x.1.state = .body ∧ mode = .finish ∧ x.2.room ≠ 0 ∧ mzClamp < x.2.input.length ∧
    (engineCall x.1 x.2 mode).used = mzClamp

/-- A call in which it does. -/
def Cuts (s : DeflateState E) (w : Window) (mode : Flush) : Prop :=
  ∃ x, Reaches (deflateStep mode) (s, w) x ∧ Cut mode x

theorem not_cuts_of_le {s : DeflateState E} {w : Window} {mode : Flush}
    (h : w.input.length ≤ mzClamp) : ¬ Cuts s w mode := by
  rintro ⟨x, hx, -, -, -, hlong, -⟩
  have := deflateStep_reaches_le hx
  dsimp only at this
  omega

/-! ## The encoder -/

/-- What an encoder of the family keeps for good. -/
structure Compresses (wrap : WrapKind) (level : ℤ) (s : DeflateState E) : Prop where
  encoder : s.encoder = true
  wrap_eq : s.wrap = wrap
  hdrLen : s.hdrLen = hdrLength wrap
  tailLen : s.tailLen = tailLength wrap
  hdr : s.hdr.take (hdrLength wrap) = wrap.headOf level

/-- An encoder that has taken `x` and given `y`: part of its header, the header and what the
engine gave, or the header, the body of `x` and the trailer of `x`, as far as it goes. -/
inductive Written (D : E.Deflates Body) (wrap : WrapKind) (level : ℤ) (s : DeflateState E) :
    Bool → List UInt8 → List UInt8 → Prop
  | header (state : s.state = .header) (engine : D.Sent s.mz false [] []) (summed : Summed s [])
      (pos : s.hdrPos ≤ hdrLength wrap) :
      Written D wrap level s false [] ((wrap.headOf level).take s.hdrPos)
  | body {shut : Bool} {x y : List UInt8} (state : s.state = .body)
      (engine : D.Sent s.mz shut x y) (summed : Summed s x) :
      Written D wrap level s shut x (wrap.headOf level ++ y)
  | trailer {c : Progressive UInt8} (state : s.state = .trailer) (body : Body c)
      (tail : s.tail.take (tailLength wrap) = wrap.tailOf c.text) (pos : s.tailPos ≤ tailLength wrap) :
      Written D wrap level s true c.text
        (wrap.headOf level ++ (c.code ++ (wrap.tailOf c.text).take s.tailPos))
  | done {c : Progressive UInt8} (state : s.state = .done) (body : Body c) :
      Written D wrap level s true c.text
        (wrap.headOf level ++ (c.code ++ wrap.tailOf c.text))

/-- Within a call that found the window `w₀`, with `x₀` taken and `y₀` given before. -/
structure Wrote (D : E.Deflates Body) (wrap : WrapKind) (level : ℤ) (mode : Flush) (shut₀ : Bool)
    (x₀ y₀ : List UInt8) (w₀ : Window) (x : DeflateState E × Window) : Prop where
  keeps : Compresses wrap level x.1
  written : ∃ u o shut, w₀.Moved u o x.2 ∧
    Written D wrap level x.1 shut (x₀ ++ w₀.input.take u) (y₀ ++ o) ∧
    (shut = true → x.2.input = [] ∧ (shut₀ = true ∨ mode = .finish))

theorem take_succ_getD {l t : List UInt8} {k : ℕ} (h : l.take t.length = t) (hk : k < t.length) :
    t.take (k + 1) = t.take k ++ [l.getD k 0] := by
  have hget : l[k]? = t[k]? := by
    rw [← List.getElem?_take_of_lt hk, h]
  rw [List.take_succ_eq_append_getElem hk, List.getD_eq_getElem?_getD, hget,
    List.getElem?_eq_getElem hk, Option.getD_some]

section Turns

variable {D : E.Deflates Body} {mode : Flush} {shut₀ : Bool} {x₀ y₀ : List UInt8} {w₀ : Window}
  {s : DeflateState E} {w : Window}

theorem Summed.afterTaking (henc : s.encoder = true) {text : List UInt8} (h : Summed s text)
    (w : Window) (r : MzStep E.State) :
    Summed (Zukomp.afterEngine s w r) (text ++ w.input.take r.used) := by
  unfold Zukomp.afterEngine
  dsimp only
  split_ifs with hw
  · exact fun hne => absurd hw hne
  · intro _
    obtain ⟨hck, hlen⟩ := h hw
    refine ⟨?_, ?_⟩
    · simp only [covered, henc, if_true, hck]
      exact checksumUpdate_checksumOf hw text _
    · simp only [covered, henc, if_true, hlen, List.length_append, UInt64.ofNat_add]

theorem Summed.trailerBytes {text : List UInt8} (h : Summed s text) (hw : s.wrap ≠ .none) :
    Zukomp.trailerBytes s.wrap s.checksum s.uncompressed = s.wrap.tailOf text := by
  obtain ⟨hck, hlen⟩ := h hw
  rw [hck, hlen]
  cases hk : s.wrap with
  | none => exact absurd hk hw
  | zlib => rfl
  | gzip => simp [Zukomp.trailerBytes, WrapKind.tailOf]

theorem Compresses.of_eq {s' : DeflateState E} (h : Compresses wrap level s)
    (heq : (s'.encoder, s'.wrap, s'.hdrLen, s'.tailLen, s'.hdr) =
      (s.encoder, s.wrap, s.hdrLen, s.tailLen, s.hdr)) : Compresses wrap level s' := by
  simp only [Prod.mk.injEq] at heq
  obtain ⟨he, hw, hh, ht, hd⟩ := heq
  exact ⟨he.trans h.encoder, hw.trans h.wrap_eq, hh.trans h.hdrLen, ht.trans h.tailLen, hd ▸ h.hdr⟩

theorem Compresses.afterEngine (h : Compresses wrap level s) (w : Window) (r : MzStep E.State) :
    Compresses wrap level (Zukomp.afterEngine s w r) := by
  refine h.of_eq ?_
  unfold Zukomp.afterEngine
  dsimp only
  split_ifs <;> rfl

theorem Wrote.move {s' : DeflateState E} {w' : Window} {u n : ℕ} {o b : List UInt8} {shut : Bool}
    (hm : w₀.Moved u o w) (hmove : w.Moved n b w') (keeps : Compresses wrap level s')
    (hwritten : Written D wrap level s' shut (x₀ ++ w₀.input.take u ++ w.input.take n) (y₀ ++ o ++ b))
    (hshut : shut = true → w'.input = [] ∧ (shut₀ = true ∨ mode = .finish)) :
    Wrote D wrap level mode shut₀ x₀ y₀ w₀ (s', w') := by
  refine ⟨keeps, _, _, shut, hm.trans hmove, ?_, hshut⟩
  have hin : w.input = w₀.input.drop u := congrArg Window.input hm.eq
  rw [List.take_add, ← hin, ← List.append_assoc, ← List.append_assoc]
  exact hwritten

/-- The body: the engine takes what it takes, and ends with all that is left. -/
theorem bodyStep_wrote {y : List UInt8} {shut : Bool} {u : ℕ} {o : List UInt8}
    (keeps : Compresses wrap level s) (hs : s.state = .body) (hm : w₀.Moved u o w)
    (hengine : D.Sent s.mz shut (x₀ ++ w₀.input.take u) y) (hsum : Summed s (x₀ ++ w₀.input.take u))
    (hgiven : y₀ ++ o = wrap.headOf level ++ y)
    (hshut : shut = true → w.input = [] ∧ (shut₀ = true ∨ mode = .finish))
    (hcut : ¬ Cut mode (s, w)) :
    Turn (Wrote D wrap level mode shut₀ x₀ y₀ w₀)
      (fun r => Wrote D wrap level mode shut₀ x₀ y₀ w₀ r.2 ∧
        (r.1 = .streamEnd → r.2.1.state = .done)) (bodyStep s w mode) := by
  have henc := keeps.encoder
  have hflush : engineFlush s mode = toMzFlush mode := if_neg (by simp [henc])
  have hfinish : toMzFlush mode = .finish → mode = .finish := by cases mode <;> simp [toMzFlush]
  unfold bodyStep
  by_cases hroom : w.room = 0 ∧ s.encoder
  · rw [if_pos hroom]
    exact ⟨⟨keeps, u, o, shut, hm, hgiven ▸ .body hs hengine hsum, hshut⟩, by simp⟩
  rw [if_neg hroom]
  dsimp only
  have hview : shut = true → w.input.take mzClamp = [] := fun h => by rw [(hshut h).1, List.take_nil]
  have hstep : DeflateStep E Body D.Sent shut (x₀ ++ w₀.input.take u) y (w.input.take mzClamp)
      (toMzFlush mode) (engineCall s w mode) := by
    unfold engineCall
    rw [hflush]
    exact D.process _ _ hengine hview
  -- told to finish, an engine that takes its whole view was shown all that is left
  have hwhole (hmode : toMzFlush mode = .finish)
      (hused : (engineCall s w mode).used = (w.input.take mzClamp).length) :
      w.input.take mzClamp = w.input ∧ (engineCall s w mode).used = w.input.length := by
    by_cases hlong : mzClamp < w.input.length
    · rw [List.length_take, min_eq_left hlong.le] at hused
      exact absurd ⟨hs, hfinish hmode, fun h => hroom ⟨h, henc⟩, hlong, hused⟩ hcut
    · have htake := List.take_of_length_le (not_lt.mp hlong)
      exact ⟨htake, by rw [hused, htake]⟩
  have hmoved := engineCall_moved s w mode
  have hle : (engineCall s w mode).used ≤ mzClamp := by
    have := E.used_le s.mz (w.input.take mzClamp) (min w.room mzClamp) (engineFlush s mode)
    rw [List.length_take] at this
    exact this.trans (min_le_left _ _)
  generalize engineCall s w mode = r at hstep hwhole hmoved hle
  have htaken : (w.input.take mzClamp).take r.used = w.input.take r.used := by
    rw [List.take_take, min_eq_left hle]
  have keeps' := keeps.afterEngine w r
  have hsum' := hsum.afterTaking henc w r
  have hall (h : r.used = w.input.length) : ((w.take r.used).put r.out).input = [] := by
    rw [Window.put_input, Window.take_input, h, List.drop_length]
  -- the engine goes on
  have hon (hend : r.status ≠ .streamEnd) : Wrote D wrap level mode shut₀ x₀ y₀ w₀
      (afterEngine s w r, (w.take r.used).put r.out) := by
    have hsent := hstep.sent hend
    rw [htaken] at hsent
    have hbody : Written D wrap level (afterEngine s w r)
        (shut || decide (toMzFlush mode = .finish ∧ r.used = (w.input.take mzClamp).length))
        (x₀ ++ w₀.input.take u ++ w.input.take r.used) (y₀ ++ o ++ r.out) := by
      rw [hgiven, List.append_assoc (wrap.headOf level)]
      exact .body (by rw [afterEngine_state, hs]) (by rwa [afterEngine_mz]) hsum'
    refine .move hm hmoved keeps' hbody (fun h => ?_)
    · rcases Bool.or_eq_true_iff.mp h with hold | hnow
      · obtain ⟨hnil, hwhy⟩ := hshut hold
        exact ⟨by rw [Window.put_input, Window.take_input, hnil, List.drop_nil], hwhy⟩
      · obtain ⟨hmode, hused⟩ := of_decide_eq_true hnow
        exact ⟨hall (hwhole hmode hused).2, .inr (hfinish hmode)⟩
  by_cases hend : r.status = .streamEnd
  · rw [if_pos hend]
    obtain ⟨hmode, hused, c, hbody, htext, hcode⟩ := hstep.ended hend
    obtain ⟨htake, hlen⟩ := hwhole hmode hused
    have htext' : x₀ ++ w₀.input.take u ++ w.input.take r.used = c.text := by
      rw [htext, htake, hlen, List.take_length]
    have hgiven' : y₀ ++ o ++ r.out = wrap.headOf level ++ c.code := by
      rw [hgiven, hcode, List.append_assoc]
    have hshut' (shut' : Bool) : shut' = true → ((w.take r.used).put r.out).input = [] ∧
        (shut₀ = true ∨ mode = .finish) := fun _ => ⟨hall hlen, .inr (hfinish hmode)⟩
    by_cases hwrap : (afterEngine s w r).wrap = .none
    · rw [if_neg (not_not.mpr hwrap)]
      have hnone : wrap = .none := keeps'.wrap_eq ▸ hwrap
      have hdone : Written D wrap level { afterEngine s w r with state := .done } true c.text
          (wrap.headOf level ++ (c.code ++ wrap.tailOf c.text)) := .done rfl hbody
      have htail : wrap.tailOf c.text = [] := by rw [hnone, WrapKind.tailOf]
      rw [htail, List.append_nil, ← hgiven', ← htext'] at hdone
      exact ⟨.move hm hmoved (keeps'.of_eq rfl) hdone (hshut' _), by simp⟩
    · rw [if_pos hwrap]
      rw [htext'] at hsum'
      have htail : (enterTrailer (afterEngine s w r)).tail =
          wrap.tailOf c.text ++ (afterEngine s w r).tail.drop (afterEngine s w r).tailLen := by
        change (if (afterEngine s w r).encoder = true then _ else _) = _
        rw [if_pos keeps'.encoder, hsum'.trailerBytes hwrap, keeps'.wrap_eq]
      have htrailer : Written D wrap level (enterTrailer (afterEngine s w r)) true c.text
          (wrap.headOf level ++ (c.code ++ (wrap.tailOf c.text).take 0)) :=
        .trailer rfl hbody (by rw [htail, ← WrapKind.length_tailOf wrap c.text, List.take_left])
          (Nat.zero_le _)
      rw [List.take_zero, List.append_nil, ← hgiven', ← htext'] at htrailer
      exact .move hm hmoved (keeps'.of_eq rfl) htrailer (hshut' _)
  rw [if_neg hend]
  have hgo := hon hend
  by_cases hbad : r.status ≠ .ok ∧ r.status ≠ .bufError
  · rw [if_pos hbad]
    obtain ⟨herr, -, -⟩ := fromMz_error hbad.1 hbad.2 hend
    refine ⟨hgo, fun h => ?_⟩
    rw [show fromMz r.status = .streamEnd from h] at herr
    cases herr
  rw [if_neg hbad]
  split_ifs
  · refine ⟨hgo, fun h => absurd h ?_⟩
    unfold stalled
    split_ifs <;> simp
  · exact hgo

/-- So does every turn. -/
theorem deflateStep_wrote {x : DeflateState E × Window}
    (h : Wrote D wrap level mode shut₀ x₀ y₀ w₀ x) (hcut : ¬ Cut mode x) :
    Turn (Wrote D wrap level mode shut₀ x₀ y₀ w₀)
      (fun r => Wrote D wrap level mode shut₀ x₀ y₀ w₀ r.2 ∧
        (r.1 = .streamEnd → r.2.1.state = .done)) (deflateStep mode x) := by
  obtain ⟨s, w⟩ := x
  obtain ⟨keeps, u, o, shut, hm, hwritten, hshut⟩ := id h
  dsimp only at keeps hm hwritten hshut
  have henc := keeps.encoder
  generalize htaken : x₀ ++ w₀.input.take u = taken at hwritten
  generalize hgiven : y₀ ++ o = given at hwritten
  have hput {s' : DeflateState E} {b : UInt8} (hroom : w.room ≠ 0) (hs' : Compresses wrap level s')
      (hw : Written D wrap level s' shut taken (given ++ [b])) :
      Wrote D wrap level mode shut₀ x₀ y₀ w₀ (s', w.put [b]) := by
    refine .move hm (.put (by rw [List.length_singleton]; omega)) hs' ?_ hshut
    rwa [List.take_zero, List.append_nil, htaken, hgiven]
  have hstay {s' : DeflateState E} (hs' : Compresses wrap level s')
      (hw : Written D wrap level s' shut taken given) :
      Wrote D wrap level mode shut₀ x₀ y₀ w₀ (s', w) := by
    refine .move hm (.refl w) hs' ?_ hshut
    rwa [List.take_zero, List.append_nil, List.append_nil, htaken, hgiven]
  unfold deflateStep
  dsimp only
  cases hwritten with
  | header state engine summed pos =>
    rw [state]
    dsimp only
    unfold headerStep
    rw [if_pos henc]
    by_cases hmore : s.hdrPos < s.hdrLen
    · rw [if_pos hmore]
      rw [keeps.hdrLen] at hmore
      by_cases hroom : w.room = 0
      · rw [if_pos hroom]
        exact ⟨h, by simp⟩
      · rw [if_neg hroom]
        refine hput hroom (keeps.of_eq rfl) ?_
        rw [← take_succ_getD (by rw [length_headOf, keeps.hdr]) (by rwa [length_headOf])]
        exact .header (s := { s with hdrPos := s.hdrPos + 1 }) state engine summed hmore
    · rw [if_neg hmore]
      have hbody : Written D wrap level { s with state := .body } false []
          (wrap.headOf level ++ []) := .body rfl engine summed
      have hwhole : (wrap.headOf level).take s.hdrPos = wrap.headOf level ++ [] := by
        rw [List.append_nil, List.take_of_length_le]
        rw [length_headOf, ← keeps.hdrLen]
        omega
      exact hstay (keeps.of_eq rfl) (hwhole ▸ hbody)
  | body state engine summed =>
    rw [state]
    rw [← htaken] at engine summed
    exact bodyStep_wrote keeps state hm engine summed hgiven hshut hcut
  | @trailer c state body tail pos =>
    rw [state]
    dsimp only
    unfold trailerStep
    rw [if_pos henc]
    by_cases hmore : s.tailPos < s.tailLen
    · rw [if_pos hmore]
      rw [keeps.tailLen] at hmore
      by_cases hroom : w.room = 0
      · rw [if_pos hroom]
        exact ⟨h, by simp⟩
      · rw [if_neg hroom]
        refine hput hroom (keeps.of_eq rfl) ?_
        rw [List.append_assoc, List.append_assoc,
          ← take_succ_getD (by rw [WrapKind.length_tailOf, tail]) (by rwa [WrapKind.length_tailOf])]
        exact .trailer (s := { s with tailPos := s.tailPos + 1 }) state body tail hmore
    · rw [if_neg hmore]
      have hdone : Written D wrap level { s with state := .done } true c.text
          (wrap.headOf level ++ (c.code ++ wrap.tailOf c.text)) := .done rfl body
      have hwhole : (wrap.tailOf c.text).take s.tailPos = wrap.tailOf c.text := by
        rw [List.take_of_length_le]
        rw [WrapKind.length_tailOf, ← keeps.tailLen]
        omega
      exact ⟨hstay (keeps.of_eq rfl) (hwhole.symm ▸ hdone), by simp⟩
  | done state body =>
    rw [state]
    exact ⟨h, fun _ => state⟩

/-- And so does a call that cuts off nothing. -/
theorem deflateProcess_wrote {shut : Bool} {x y : List UInt8} (keeps : Compresses wrap level s)
    (hwritten : Written D wrap level s shut x y) (hshut : shut = true → w.input = [])
    (hcut : ¬ Cuts s w mode) :
    Wrote D wrap level mode shut x y w (deflateProcess s w mode).2 ∧
      ((deflateProcess s w mode).1 = .streamEnd → (deflateProcess s w mode).2.1.state = .done) := by
  have hstart : Wrote D wrap level mode shut x y w (s, w) := by
    refine ⟨keeps, 0, [], shut, .refl w, ?_, fun h => ⟨hshut h, .inl h⟩⟩
    rwa [List.take_zero, List.append_nil, List.append_nil]
  obtain ⟨z, hz, hr⟩ := deflateProcess_returns s w mode
  have hinv : Reaches (deflateStep mode) (s, w) z ∧ Wrote D wrap level mode shut x y w z := by
    refine hz.invariant (fun z => Reaches (deflateStep mode) (s, w) z ∧ _) (fun z z' h hstep => ?_)
      ⟨.refl, hstart⟩
    have hturn := deflateStep_wrote h.2 (fun hc => hcut ⟨z, h.1, hc⟩)
    rw [hstep] at hturn
    exact ⟨h.1.tail hstep, hturn⟩
  have hturn := deflateStep_wrote hinv.2 (fun hc => hcut ⟨z, hz, hc⟩)
  rw [hr] at hturn
  exact hturn

end Turns

/-! ## The encoding -/

theorem deflateNew_written (D : E.Deflates Body) {asked : ℤ} {flags : UInt32} {s : DeflateState E}
    (h : deflateNew E wrap true asked flags = .ok s) :
    Compresses wrap s.level s ∧ Written D wrap s.level s false [] [] := by
  obtain ⟨hok, rfl⟩ := deflateNew_ok h
  have hsent := D.init _ hok
  refine ⟨⟨rfl, rfl, rfl, rfl, writeHdr_take _ _ _⟩, ?_⟩
  cases wrap with
  | none => exact .body (y := []) rfl hsent fun hne => absurd rfl hne
  | zlib => exact .header rfl hsent (fun _ => ⟨checksumInit_eq .zlib, rfl⟩) (Nat.zero_le _)
  | gzip => exact .header rfl hsent (fun _ => ⟨checksumInit_eq .gzip, rfl⟩) (Nat.zero_le _)

/-- The member that an encoder at `level` makes of a body. -/
def WrapKind.member (wrap : WrapKind) (level : ℤ) (c : Progressive UInt8) : Member :=
  ⟨wrap.headOf level, c, wrap.tailOf c.text⟩

/-- `b` is a member of all of `x`: its trailer has the checksum, and for gzip the length, of
`x`. -/
def Covered (Body : Progressive UInt8 → Prop) (wrap : WrapKind) (level : ℤ) (x b : List UInt8) :
    Prop :=
  ∃ c, Body c ∧ x = (wrap.member level c).text ∧ b = (wrap.member level c).code

section Encodings

variable {M : Miniz} {codec : CodecId} {D : M.deflate.Deflates Body}
  {x : Encoding (deflateVtable M codec wrap)} {offered offered' : Option (List UInt8)}
  {buf : Buffer} {mode : Flush}

/-- A call that never cuts the engine's view. -/
def Uncut (e : Encoder (deflateVtable M codec wrap)) (buf : Buffer) (mode : Flush) : Prop :=
  ¬ Cuts (E := M.deflate) e.state buf.window mode

/-- An encoding of what it has taken; once its engine has been told to finish, of all that was
offered. -/
structure WritesOut (D : M.deflate.Deflates Body) (level : ℤ) (offered : Option (List UInt8))
    (x : Encoding (deflateVtable M codec wrap)) : Prop where
  keeps : Compresses (E := M.deflate) wrap level x.enc.state
  written : ∃ shut, Written D wrap level x.enc.state shut x.taken x.given ∧
    (shut = true → offered = some x.taken)
  ended : x.enc.finished = true → DeflateState.state x.enc.state = .done

theorem WritesOut.whole (h : WritesOut D level offered x)
    (hdone : DeflateState.state x.enc.state = .done) :
    offered = some x.taken ∧
      ∃ c, Body c ∧ x.taken = (wrap.member level c).text ∧ x.given = (wrap.member level c).code := by
  obtain ⟨shut, hwritten, hshut⟩ := h.written
  generalize x.taken = taken at hwritten hshut ⊢
  generalize x.given = given at hwritten ⊢
  cases hwritten with
  | header state => rw [state] at hdone; cases hdone
  | body state => rw [state] at hdone; cases hdone
  | trailer state => rw [state] at hdone; cases hdone
  | @done c _ hbody => exact ⟨hshut rfl, c, hbody, rfl, rfl⟩

/-- What one call does, and what it means that it ends the stream. -/
theorem WritesOut.next (h : WritesOut D level offered x)
    (hoffer : ∀ y, offered = some y → x.taken ++ buf.unread = y)
    (hcut : Uncut x.enc buf mode)
    (hnext : offered.isSome ∨ mode = .finish → offered' = some (x.taken ++ buf.unread)) :
    WritesOut D level offered' (x.next buf mode) ∧
      ((encoderProcess x.enc buf mode).1 = .streamEnd →
        DeflateState.state (x.next buf mode).enc.state = .done) := by
  obtain ⟨shut, hwritten, hshut⟩ := h.written
  have hnone (hs : shut = true) : buf.unread = [] := by
    have := hoffer _ (hshut hs)
    exact List.append_right_eq_self.mp this
  rcases @Encoding.next_cases _ deflateProcess rfl x buf mode with ⟨hsame, hend⟩ | ⟨-, hcall⟩
  · rw [hsame]
    refine ⟨⟨h.keeps, ⟨shut, hwritten, fun hs => ?_⟩, h.ended⟩, fun hst => h.ended (hend hst)⟩
    rw [hnext (.inl (by rw [hshut hs]; rfl)), hnone hs, List.append_nil]
  · obtain ⟨⟨keeps, u, o, shut', hm, hwritten', hshut'⟩, hdone⟩ :=
      deflateProcess_wrote h.keeps hwritten hnone
        (show ¬ Cuts (E := M.deflate) x.enc.state buf.window mode from hcut)
    obtain ⟨heq, hst⟩ := hcall _ _ u o (Prod.ext rfl (Prod.ext rfl hm.eq))
    rw [hst, heq]
    refine ⟨⟨keeps, ⟨shut', hwritten', fun hs => ?_⟩, fun hfin => hdone (beq_iff_eq.mp hfin)⟩, hdone⟩
    obtain ⟨hspent, hwhy⟩ := hshut' hs
    rw [hm.eq] at hspent
    have hall : buf.unread.take u = buf.unread := by
      have hle := List.drop_eq_nil_iff.mp hspent
      exact List.take_of_length_le hle
    dsimp only
    rw [hall]
    refine hnext (hwhy.imp (fun hs => ?_) id)
    rw [hshut hs]
    rfl

/-- Every encoding that its caller supplies, and never cuts, writes out what was offered. -/
theorem suppliedBy_writesOut {e : Encoder (deflateVtable M codec wrap)}
    (hstart : WritesOut D level none (Encoding.start e))
    (hx : Encoding.SuppliedBy Uncut e offered x) : WritesOut D level offered x := by
  induction hx with
  | new => exact hstart
  | more _ buf hmode hcut ih => exact (ih.next (by simp) hcut (by simp [hmode])).1
  | finish _ buf hcut ih => exact (ih.next (by simp) hcut fun _ => rfl).1
  | rest _ hbuf mode hcut ih =>
    exact (ih.next (fun y hy => hbuf.trans (Option.some.inj hy)) hcut fun _ => by rw [hbuf]).1

/-- A call under `ZU_FINISH` that ends the stream has consumed its buffer and covers all that was
ever offered. -/
def EndsWhole (Body : Progressive UInt8 → Prop) (level : ℤ)
    (x : Encoding (deflateVtable M codec wrap)) (buf : Buffer) : Prop :=
  (encoderProcess x.enc buf .finish).1 = .streamEnd →
    (encoderProcess x.enc buf .finish).2.2.srcPos = buf.srcSize ∧
      Covered Body wrap level (x.taken ++ buf.unread) (x.next buf .finish).given

theorem WritesOut.endsWhole {D : M.deflate.Deflates Body} {offered : Option (List UInt8)}
    {x : Encoding (deflateVtable M codec wrap)} (h : WritesOut D level offered x) {buf : Buffer}
    (hoffer : ∀ y, offered = some y → x.taken ++ buf.unread = y)
    (hcut : Uncut x.enc buf .finish) : EndsWhole Body level x buf := by
  intro hend
  obtain ⟨hnext, hdone⟩ : WritesOut D level (some (x.taken ++ buf.unread)) (x.next buf .finish) ∧ _ :=
    h.next hoffer hcut fun _ => rfl
  obtain ⟨hall, c, hbody, htext, hcode⟩ := hnext.whole (hdone hend)
  have htaken : (x.next buf .finish).taken = x.taken ++ buf.unread := (Option.some.inj hall).symm
  have hspent := @Encoding.next_spent _ deflateProcess rfl x buf .finish (encoderProcess_end hend).1 htaken
  exact ⟨hspent, c, hbody, htaken ▸ htext, hcode⟩

theorem WritesOut.start (D : M.deflate.Deflates Body) {lookup : CodecId → Option CodecVtable}
    {opts : EncoderOpts} {e : Encoder (deflateVtable M codec wrap)}
    (hnew : encoderNew lookup opts = .ok ⟨deflateVtable M codec wrap, e⟩) :
    WritesOut D (DeflateState.level e.state) none (Encoding.start e) := by
  obtain ⟨-, hstate, hfin⟩ := encoderNew_ok hnew
  obtain ⟨keeps, hwritten⟩ := deflateNew_written D hstate
  exact ⟨keeps, ⟨false, hwritten, by simp⟩, by simp [Encoding.start, hfin]⟩

end Encodings

end Zukomp
