import Mathlib.Data.List.GetD
import Zukomp.Core.Encoding
import Zukomp.Deflate.Turns

/-! # Encoders of the DEFLATE family

An encoder writes its header, hands its input to the engine until that ends the body, and
writes the trailer it has summed up.
-/

namespace Zukomp

open Library

variable {E : MzStream}

/-- The header an encoder writes. -/
def WrapKind.headOf : WrapKind → ℤ → List UInt8
  | .none, _ => []
  | .zlib, level => zlibHeader level
  | .gzip, _ => gzipWriteHeader

@[simp] theorem length_headOf (wrap : WrapKind) (level : ℤ) :
    (wrap.headOf level).length = hdrLength wrap := by
  cases wrap <;> rfl

theorem writeHdr_take (wrap : WrapKind) (level : ℤ) (hdr : List UInt8) :
    (writeHdr wrap true level hdr).take (hdrLength wrap) = wrap.headOf level := by
  cases wrap with
  | none => rfl
  | zlib => rfl
  | gzip => rfl

/-! ## The headers -/

/-- The level as FLEVEL has it: fastest, fast, default or best. -/
def flevelOf (level : ℤ) : UInt8 :=
  if level ≤ 1 then 0 else if level ≤ 5 then 1 else if level = 6 then 2 else 3

/-- The header says how the body is compressed, and passes the decoder's check. -/
theorem zlibHeader_valid (level : ℤ) :
    ∃ flg, zlibHeader level = [0x78, flg] ∧ flg >>> 6 = flevelOf level ∧
      ((0x78 : UInt8).toNat * 256 + flg.toNat) % 31 = 0 ∧ flg &&& 0x20 = 0 := by
  unfold zlibHeader flevelOf
  split_ifs
  · exact ⟨0x01, by decide⟩
  · exact ⟨0x5E, by decide⟩
  · exact ⟨0x9C, by decide⟩
  · exact ⟨0xDA, by decide⟩

/-! ## The header comes first -/

/-- An encoder that has given `given`: its header, as far as it goes, and then the rest. -/
structure Heads (wrap : WrapKind) (level : ℤ) (s : DeflateState E) (given : List UInt8) : Prop where
  encoder : s.encoder = true
  hdrLen : s.hdrLen = hdrLength wrap
  hdr : s.hdr.take s.hdrLen = wrap.headOf level
  writing : s.state = .header → s.hdrPos ≤ s.hdrLen ∧ given = (wrap.headOf level).take s.hdrPos
  written : s.state ≠ .header → wrap.headOf level <+: given

section Heads

variable {wrap : WrapKind} {level : ℤ} {s s' : DeflateState E} {given given' : List UInt8}

theorem Heads.behind (h : Heads wrap level s given) (hs : s.state ≠ .header)
    (hsame : (s'.encoder, s'.hdrLen, s'.hdr) = (s.encoder, s.hdrLen, s.hdr))
    (hs' : s'.state ≠ .header) (hmore : given <+: given') : Heads wrap level s' given' := by
  simp only [Prod.mk.injEq] at hsame
  obtain ⟨henc, hlen, hhdr⟩ := hsame
  exact ⟨henc.trans h.encoder, hlen.trans h.hdrLen, by rw [hlen, hhdr, h.hdr],
    fun hn => absurd hn hs', fun _ => (h.written hs).trans hmore⟩

theorem Heads.next (h : Heads wrap level s given) (hs : s.state = .header)
    (hpos : s.hdrPos < s.hdrLen) :
    given ++ [s.hdr.getD s.hdrPos 0] = (wrap.headOf level).take (s.hdrPos + 1) := by
  have hlt : s.hdrPos < (wrap.headOf level).length := by rwa [length_headOf, ← h.hdrLen]
  have hlt' : s.hdrPos < s.hdr.length := by
    have := congrArg List.length h.hdr
    rw [List.length_take] at this
    omega
  have hget : (wrap.headOf level)[s.hdrPos] = s.hdr[s.hdrPos] := by
    simp only [← h.hdr, List.getElem_take]
  rw [(h.writing hs).2, List.take_succ_eq_append_getElem hlt, hget, List.getD_eq_getElem _ _ hlt']

theorem afterEngine_hdr (s : DeflateState E) (w : Window) (r : MzStep E.State) :
    ((afterEngine s w r).encoder, (afterEngine s w r).hdrLen, (afterEngine s w r).hdr) =
      (s.encoder, s.hdrLen, s.hdr) := by
  unfold afterEngine
  dsimp only
  split_ifs <;> rfl

theorem memberEndStep_encoder (henc : s.encoder = true) (w : Window) (mode : Flush) :
    memberEndStep s w mode = finishMember s w := by
  have hc : concatenates s = false := by simp [concatenates, henc]
  unfold memberEndStep
  cases w.input with
  | nil => exact if_neg (by simp [henc])
  | cons b rest => exact if_pos hc

/-- The turns of an encoder keep its header first. -/
theorem deflateStep_heads (mode : Flush) {w : Window} {before : List UInt8}
    (h : Heads wrap level s (before ++ w.written)) :
    Turn (fun y => Heads wrap level y.1 (before ++ y.2.written))
      (fun r => Heads wrap level r.2.1 (before ++ r.2.2.written)) (deflateStep mode (s, w)) := by
  have henc := h.encoder
  have hmore (o : List UInt8) : before ++ w.written <+: before ++ (w.written ++ o) :=
    ⟨o, by rw [List.append_assoc]⟩
  unfold deflateStep
  dsimp only
  cases hs : s.state with
  | done => exact h
  | header =>
    dsimp only
    unfold headerStep
    rw [if_pos henc]
    split_ifs with hpos hroom
    · exact h
    · refine ⟨henc, h.hdrLen, h.hdr, fun _ => ⟨hpos, ?_⟩, fun hne => absurd hs hne⟩
      rw [Window.put_written, ← List.append_assoc]
      exact h.next hs hpos
    · refine ⟨henc, h.hdrLen, h.hdr, fun hn => (by cases hn), fun _ => ?_⟩
      obtain ⟨hle, hgiven⟩ := h.writing hs
      rw [hgiven, List.take_of_length_le]
      rw [length_headOf, ← h.hdrLen]
      omega
  | body =>
    dsimp only
    have hengine (o : List UInt8) (w' : Window) (r : MzStep E.State) :=
      h.behind (by simp [hs]) (afterEngine_hdr s w' r) (by simp [hs]) (hmore o)
    unfold bodyStep
    dsimp only
    split_ifs
    · exact h
    · exact (hengine _ w _).behind (by simp [hs]) rfl (by simp [enterTrailer]) (List.prefix_refl _)
    · exact (hengine _ w _).behind (by simp [hs]) rfl (by simp) (List.prefix_refl _)
    · exact hengine _ w _
    · exact hengine _ w _
    · exact hengine _ w _
  | memberEnd =>
    dsimp only
    rw [memberEndStep_encoder henc]
    unfold finishMember
    dsimp only
    split_ifs
    · exact h.behind (by simp [hs]) rfl (by simp) (List.prefix_refl _)
    · exact h.behind (by simp [hs]) rfl (by simp) (List.prefix_refl _)
    · exact h.behind (by simp [hs]) rfl (by simp) (List.prefix_refl _)
  | trailer =>
    dsimp only
    unfold trailerStep
    rw [if_pos henc]
    split_ifs
    · exact h
    · exact h.behind (by simp [hs]) rfl (by simp [hs]) (hmore _)
    · exact h.behind (by simp [hs]) rfl (by simp) (List.prefix_refl _)

theorem deflateProcess_heads (mode : Flush) {w : Window} {before : List UInt8}
    (h : Heads wrap level s (before ++ w.written)) :
    Heads wrap level (deflateProcess s w mode).2.1
      (before ++ (deflateProcess s w mode).2.2.written) :=
  runLoop_keeps (fun x : DeflateState E × Window => Heads wrap level x.1 (before ++ x.2.written))
    (fun r : Status × DeflateState E × Window => Heads wrap level r.2.1 (before ++ r.2.2.written))
    (fun _ hx => deflateStep_heads mode hx) (fun _ hx => hx) h _

theorem Heads.begins (h : Heads wrap level s given) :
    given.take (hdrLength wrap) <+: wrap.headOf level := by
  by_cases hs : s.state = .header
  · rw [(h.writing hs).2]
    exact (List.take_prefix _ _).trans (List.take_prefix _ _)
  · have hall := (h.written hs).take (hdrLength wrap)
    rw [List.take_of_length_le (length_headOf wrap level).le] at hall
    have hlen := (h.written hs).length_le
    rw [← hall.eq_of_length (by rw [List.length_take, min_eq_left (by simpa using hlen), length_headOf])]

theorem Heads.of_start (henc : s.encoder = true) (hlen : s.hdrLen = hdrLength wrap)
    (hhdr : s.hdr.take (hdrLength wrap) = wrap.headOf level) (hpos : s.hdrPos = 0)
    (hs : s.state ≠ .header → wrap = .none) : Heads wrap level s [] := by
  refine ⟨henc, hlen, by rw [hlen, hhdr], fun _ => ⟨by omega, by simp [hpos]⟩, fun hne => ?_⟩
  rw [hs hne]
  exact List.nil_prefix

/-- All that an encoder gives from its start on is its header, as far as it goes, and then
the rest. -/
theorem encoding_heads {M : Miniz} {codec : CodecId} {e : Encoder (deflateVtable M codec wrap)}
    (h : Heads wrap level e.state []) {x : Encoding (deflateVtable M codec wrap)}
    (hx : Encoding.Run e x) : Heads wrap level x.enc.state x.given := by
  refine hx.invariant (fun x => Heads wrap level x.enc.state x.given) h fun x buf mode ih => ?_
  rcases @Encoding.next_cases _ deflateProcess rfl x buf mode with ⟨hsame, -⟩ | ⟨-, hcall⟩
  · rwa [hsame]
  · obtain ⟨u, o, hm⟩ := deflateProcess_advances x.enc.state buf.window mode
    have hheads := deflateProcess_heads mode
      (show Heads wrap level x.enc.state (x.given ++ buf.window.written) by
        simpa [Buffer.window] using ih)
    obtain ⟨hnext, -⟩ := hcall _ _ u o (Prod.ext rfl (Prod.ext rfl hm.eq))
    rw [hnext]
    rw [hm.eq] at hheads
    exact hheads

end Heads

end Zukomp
