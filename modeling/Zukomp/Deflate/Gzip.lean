import Zukomp.Core.Types
import Zukomp.Deflate.Checksum

/-! # The gzip header, zu_gzip.c

The parser is fed one byte at a time. A well-formed header of RFC 1952, with fields
within the parser's bound, is accepted at its last byte and not before.
-/

namespace Zukomp

def gzHcrc : UInt8 := 0x02
def gzExtra : UInt8 := 0x04
def gzName : UInt8 := 0x08
def gzComment : UInt8 := 0x10
def gzReserved : UInt8 := 0xE0

def gzipMaxField : ℕ := 65535

def gzipHeaderLen : ℕ := 10

def gzipMagic : List UInt8 := [0x1F, 0x8B]

/-- `zu_int_gzip_write_header`: no mtime, no name, no comment, OS unknown. -/
def gzipWriteHeader : List UInt8 := [0x1F, 0x8B, 8, 0, 0, 0, 0, 0, 0, 255]

inductive GzState where
  | fixed | extraLen | extra | name | comment | hcrc | done
  deriving DecidableEq

structure GzipHeader where
  state : GzState
  fixed : List UInt8
  fixedPos : ℕ
  flg : UInt8
  xlen : UInt16
  xlenPos : ℕ
  xpos : ℕ
  fieldLen : ℕ
  hcrc : List UInt8
  hcrcPos : ℕ
  crc : UInt32

def gzipHeaderInit : GzipHeader where
  state := .fixed
  fixed := List.replicate gzipHeaderLen 0
  fixedPos := 0
  flg := 0
  xlen := 0
  xlenPos := 0
  xpos := 0
  fieldLen := 0
  hcrc := [0, 0]
  hcrcPos := 0
  crc := mzCrc32 0 []

/-- The field that follows the comment, the name, the extra field and the fixed part. -/
def afterComment (flg : UInt8) : GzState := if flg &&& gzHcrc ≠ 0 then .hcrc else .done
def afterName (flg : UInt8) : GzState :=
  if flg &&& gzComment ≠ 0 then .comment else afterComment flg
def afterExtra (flg : UInt8) : GzState := if flg &&& gzName ≠ 0 then .name else afterName flg
def afterFixed (flg : UInt8) : GzState :=
  if flg &&& gzExtra ≠ 0 then .extraLen else afterExtra flg

namespace GzipHeader

/-- The end of `zu_int_gzip_header_feed`: the header is complete in the last state. -/
def arrive (h : GzipHeader) (state : GzState) : Status × Bool × GzipHeader :=
  (.ok, state == .done, { h with state := state })

/-- A byte of the fixed part, checked at its place. -/
def feedFixed (h : GzipHeader) (byte : UInt8) : Status × Bool × GzipHeader :=
  let h := { h with fixed := h.fixed.set h.fixedPos byte, fixedPos := h.fixedPos + 1 }
  if h.fixedPos = 1 ∧ byte ≠ 0x1F then (.errInvalidData, false, h)
  else if h.fixedPos = 2 ∧ byte ≠ 0x8B then (.errInvalidData, false, h)
  else if h.fixedPos = 3 ∧ byte ≠ 8 then (.errInvalidData, false, h)
  else if h.fixedPos = 4 ∧ byte &&& gzReserved ≠ 0 then (.errInvalidData, false, h)
  else
    let h := if h.fixedPos = 4 then { h with flg := byte } else h
    if h.fixedPos < gzipHeaderLen then (.ok, false, h) else h.arrive (afterFixed h.flg)

/-- `XLEN` is little-endian. -/
def feedExtraLen (h : GzipHeader) (byte : UInt8) : Status × Bool × GzipHeader :=
  let h := { h with
    xlen := h.xlen ||| (byte.toUInt16 <<< UInt16.ofNat (8 * h.xlenPos))
    xlenPos := h.xlenPos + 1 }
  if h.xlenPos < 2 then (.ok, false, h)
  else h.arrive (if 0 < h.xlen then .extra else afterExtra h.flg)

def feedExtra (h : GzipHeader) (_byte : UInt8) : Status × Bool × GzipHeader :=
  let h := { h with xpos := h.xpos + 1 }
  if h.xpos < h.xlen.toNat then (.ok, false, h) else h.arrive (afterExtra h.flg)

/-- The name and the comment: NUL-terminated, discarded, bounded. -/
def feedField (h : GzipHeader) (byte : UInt8) (after : UInt8 → GzState) :
    Status × Bool × GzipHeader :=
  if byte ≠ 0 then
    let h := { h with fieldLen := h.fieldLen + 1 }
    if gzipMaxField < h.fieldLen then (.errInvalidData, false, h) else (.ok, false, h)
  else { h with fieldLen := 0 }.arrive (after h.flg)

def feedHcrc (h : GzipHeader) (byte : UInt8) : Status × Bool × GzipHeader :=
  let h := { h with hcrc := h.hcrc.set h.hcrcPos byte, hcrcPos := h.hcrcPos + 1 }
  if h.hcrcPos < 2 then (.ok, false, h)
  else if (h.hcrc.getD 0 0).toUInt16 ||| ((h.hcrc.getD 1 0).toUInt16 <<< 8) ≠
      (h.crc &&& 0xFFFF).toUInt16 then (.errChecksum, false, h)
  else h.arrive .done

/-- The header checksum covers every byte before itself. -/
def count (h : GzipHeader) (byte : UInt8) : GzipHeader :=
  { h with crc := mzCrc32 h.crc [byte] }

/-- `zu_int_gzip_header_feed`, with the `done` it reports. -/
def feed (h : GzipHeader) (byte : UInt8) : Status × Bool × GzipHeader :=
  match h.state with
  | .fixed => (h.count byte).feedFixed byte
  | .extraLen => (h.count byte).feedExtraLen byte
  | .extra => (h.count byte).feedExtra byte
  | .name => (h.count byte).feedField byte afterName
  | .comment => (h.count byte).feedField byte afterComment
  | .hcrc => h.feedHcrc byte
  | .done => (.errInternal, false, h.count byte)

theorem feed_done {h : GzipHeader} (hs : h.state = .done) (byte : UInt8) :
    (h.feed byte).1 = .errInternal := by rw [feed, hs]

/-- What a header that never completes comes to: its own error, or a short input. -/
def headerError (h : GzipHeader) : List UInt8 → Option Status
  | [] => some .errTruncated
  | b :: rest => match h.feed b with
    | (.ok, true, _) => none
    | (.ok, false, h') => h'.headerError rest
    | (st, _, _) => some st

theorem feed_status (h : GzipHeader) (byte : UInt8) :
    (h.feed byte).1 = .ok ∨ (h.feed byte).1.isError = true := by
  unfold feed feedFixed feedExtraLen feedExtra feedField feedHcrc
  cases h.state with
  | done => exact .inr rfl
  | _ =>
    simp only [arrive]
    split_ifs <;> simp [Status.isError]

theorem headerError_isError {h : GzipHeader} {bytes : List UInt8} {st : Status}
    (he : h.headerError bytes = some st) : st.isError = true := by
  induction bytes generalizing h with
  | nil =>
    obtain rfl := Option.some.inj he
    rfl
  | cons b rest ih =>
    unfold headerError at he
    have hfeed := h.feed_status b
    rcases hr : h.feed b with ⟨st', done, h'⟩
    rw [hr] at he hfeed
    rcases hfeed with rfl | herr
    · cases done with
      | false => exact ih he
      | true => cases he
    · cases st' with
      | ok | needInput | needOutput | streamEnd => cases herr
      | _ =>
        obtain rfl := Option.some.inj he
        rfl

/-- The parser takes exactly `rest` to complete, without an error. -/
inductive Awaits : GzipHeader → List UInt8 → Prop
  | done {h : GzipHeader} (state : h.state = .done) : Awaits h []
  | more {h h' : GzipHeader} {b : UInt8} {rest : List UInt8}
      (fed : h.feed b = (.ok, h'.state == .done, h')) (next : Awaits h' rest) :
      Awaits h (b :: rest)

theorem Awaits.state_ne {h : GzipHeader} {b : UInt8} {rest : List UInt8}
    (ha : h.Awaits (b :: rest)) : h.state ≠ .done := by
  intro hs
  cases ha with
  | more fed _ =>
    have := feed_done hs b
    rw [fed] at this
    cases this

theorem Awaits.feed {h : GzipHeader} {b : UInt8} {rest : List UInt8} (ha : h.Awaits (b :: rest)) :
    ∃ h', h.feed b = (.ok, rest.isEmpty, h') ∧ h'.Awaits rest := by
  cases ha with
  | @more _ h' _ _ fed next =>
    refine ⟨h', ?_, next⟩
    rw [fed]
    cases rest with
    | nil =>
      cases next with
      | done state => simp [state]
    | cons c rest => simp [next.state_ne]

/-- The parser goes on through `x`, from one byte to the next. -/
inductive Fed : GzipHeader → List UInt8 → GzipHeader → Prop
  | refl {h : GzipHeader} : Fed h [] h
  | step {h h' h'' : GzipHeader} {b : UInt8} {rest : List UInt8}
      (fed : h.feed b = (.ok, h'.state == .done, h')) (next : Fed h' rest h'') :
      Fed h (b :: rest) h''

theorem Fed.trans {h h' h'' : GzipHeader} {x y : List UInt8} (hx : h.Fed x h') (hy : h'.Fed y h'') :
    h.Fed (x ++ y) h'' := by
  induction hx with
  | refl => exact hy
  | step fed _ ih => exact .step fed (ih hy)

theorem Fed.unique {h h' h'' : GzipHeader} {x : List UInt8} (hx : h.Fed x h') (hy : h.Fed x h'') :
    h' = h'' := by
  induction hx with
  | refl =>
    cases hy
    rfl
  | step fed _ ih =>
    cases hy with
    | step fed' next =>
      rw [fed] at fed'
      simp only [Prod.mk.injEq] at fed'
      rw [← fed'.2.2] at next
      exact ih next

theorem Fed.split {h h'' : GzipHeader} {x y : List UInt8} (hxy : h.Fed (x ++ y) h'') :
    ∃ h', h.Fed x h' ∧ h'.Fed y h'' := by
  induction x generalizing h with
  | nil => exact ⟨h, .refl, hxy⟩
  | cons b x ih =>
    cases hxy with
    | step fed next =>
      obtain ⟨h', hx, hy⟩ := ih next
      exact ⟨h', .step fed hx, hy⟩

theorem Fed.awaits {h h' : GzipHeader} {x rest : List UInt8} (hx : h.Fed x h')
    (ha : h'.Awaits rest) : h.Awaits (x ++ rest) := by
  induction hx with
  | refl => exact ha
  | step fed _ ih => exact .more fed (ih ha)

theorem Awaits.fed {h : GzipHeader} {x rest : List UInt8} (ha : h.Awaits (x ++ rest)) :
    ∃ h', h.Fed x h' ∧ h'.Awaits rest := by
  induction x generalizing h with
  | nil => exact ⟨h, .refl, ha⟩
  | cons b x ih =>
    cases ha with
    | more fed next =>
      obtain ⟨h', hx, hrest⟩ := ih next
      exact ⟨h', .step fed hx, hrest⟩

theorem Fed.arrived {h h'' : GzipHeader} {b : UInt8} {rest : List UInt8} (h' : GzipHeader)
    (state : GzState) (hf : h.feed b = h'.arrive state) (hn : { h' with state := state }.Fed rest h'') :
    h.Fed (b :: rest) h'' :=
  @Fed.step h { h' with state := state } h'' b rest hf hn

end GzipHeader

/-! ## Well-formed headers -/

/-- The fields of a header in the sense of RFC 1952, within the parser's bound. -/
structure GzipFields where
  flg : UInt8
  mtime : List UInt8
  xfl : UInt8
  os : UInt8
  extra : List UInt8
  name : List UInt8
  comment : List UInt8
  reserved_zero : flg &&& gzReserved = 0
  mtime_length : mtime.length = 4
  extra_length : extra.length < 2 ^ 16
  name_nonzero : 0 ∉ name
  name_length : name.length ≤ gzipMaxField
  comment_nonzero : 0 ∉ comment
  comment_length : comment.length ≤ gzipMaxField

namespace GzipFields

variable (g : GzipFields)

def fixedPart : List UInt8 := [0x1F, 0x8B, 8, g.flg] ++ g.mtime ++ [g.xfl, g.os]

def extraPart : List UInt8 :=
  if g.flg &&& gzExtra ≠ 0 then
    [UInt8.ofNat (g.extra.length % 256), UInt8.ofNat (g.extra.length / 256)] ++ g.extra
  else []

def namePart : List UInt8 := if g.flg &&& gzName ≠ 0 then g.name ++ [0] else []
def commentPart : List UInt8 := if g.flg &&& gzComment ≠ 0 then g.comment ++ [0] else []

/-- Everything the header checksum covers. -/
def covered : List UInt8 := g.fixedPart ++ g.extraPart ++ g.namePart ++ g.commentPart

def hcrcPart : List UInt8 :=
  if g.flg &&& gzHcrc ≠ 0 then
    [(mzCrc32 0 g.covered).toUInt8, (mzCrc32 0 g.covered >>> 8).toUInt8]
  else []

def bytes : List UInt8 := g.covered ++ g.hcrcPart

end GzipFields

namespace GzipHeader

/-- What byte `n` of the fixed part may be. -/
structure FixedAllows (n : ℕ) (b : UInt8) : Prop where
  id1 : n = 0 → b = 0x1F
  id2 : n = 1 → b = 0x8B
  method : n = 2 → b = 8
  reserved : n = 3 → b &&& gzReserved = 0

/-- The parser behind byte `b` of the fixed part. -/
def afterFixedByte (h : GzipHeader) (b : UInt8) : GzipHeader :=
  let flg := if h.fixedPos = 3 then b else h.flg
  { h.count b with
    fixed := h.fixed.set h.fixedPos b
    fixedPos := h.fixedPos + 1
    flg := flg
    state := if h.fixedPos + 1 < gzipHeaderLen then .fixed else afterFixed flg }

theorem feed_fixed {h : GzipHeader} (hs : h.state = .fixed) {b : UInt8}
    (hb : FixedAllows h.fixedPos b) :
    h.feed b = (.ok, (h.afterFixedByte b).state == .done, h.afterFixedByte b) := by
  have e0 : ¬ (h.fixedPos = 0 ∧ b ≠ 0x1F) := fun h => h.2 (hb.id1 h.1)
  have e1 : ¬ (h.fixedPos = 1 ∧ b ≠ 0x8B) := fun h => h.2 (hb.id2 h.1)
  have e2 : ¬ (h.fixedPos = 2 ∧ b ≠ 8) := fun h => h.2 (hb.method h.1)
  have e3 : ¬ (h.fixedPos = 3 ∧ b &&& gzReserved ≠ 0) := fun h => h.2 (hb.reserved h.1)
  simp only [feed, hs, feedFixed, count, Nat.add_eq_right, Nat.reduceEqDiff]
  rw [if_neg e0, if_neg e1, if_neg e2, if_neg e3]
  by_cases h3 : h.fixedPos = 3
  · simp [afterFixedByte, count, h3, hs, gzipHeaderLen]
  · by_cases hlt : h.fixedPos + 1 < gzipHeaderLen
    · simp [afterFixedByte, count, h3, hs, hlt]
    · simp [afterFixedByte, count, arrive, h3, hlt]

theorem feed_fixed_error {h : GzipHeader} (hs : h.state = .fixed) {b : UInt8}
    (hb : ¬ FixedAllows h.fixedPos b) : ∃ h', h.feed b = (.errInvalidData, false, h') := by
  simp only [feed, hs, feedFixed, count, Nat.add_eq_right, Nat.reduceEqDiff]
  by_cases e0 : h.fixedPos = 0 ∧ b ≠ 0x1F
  · exact ⟨_, if_pos e0⟩
  rw [if_neg e0]
  by_cases e1 : h.fixedPos = 1 ∧ b ≠ 0x8B
  · exact ⟨_, if_pos e1⟩
  rw [if_neg e1]
  by_cases e2 : h.fixedPos = 2 ∧ b ≠ 8
  · exact ⟨_, if_pos e2⟩
  rw [if_neg e2]
  by_cases e3 : h.fixedPos = 3 ∧ b &&& gzReserved ≠ 0
  · exact ⟨_, if_pos e3⟩
  refine absurd ⟨fun h => ?_, fun h => ?_, fun h => ?_, fun h => ?_⟩ hb
  · exact not_not.mp fun hne => e0 ⟨h, hne⟩
  · exact not_not.mp fun hne => e1 ⟨h, hne⟩
  · exact not_not.mp fun hne => e2 ⟨h, hne⟩
  · exact not_not.mp fun hne => e3 ⟨h, hne⟩

theorem awaits_hcrc {h : GzipHeader} (hs : h.state = .hcrc) (hpos : h.hcrcPos = 0)
    (hlen : h.hcrc.length = 2) : h.Awaits [h.crc.toUInt8, (h.crc >>> 8).toUInt8] := by
  obtain ⟨x, y, hxy⟩ := List.length_eq_two.mp hlen
  have hcrc (c : UInt32) :
      c.toUInt8.toUInt16 ||| ((c >>> 8).toUInt8.toUInt16 <<< 8) = (c &&& 0xFFFF).toUInt16 := by
    apply UInt16.toBitVec_inj.mp
    simp only [UInt16.toBitVec_or, UInt16.toBitVec_shiftLeft, UInt8.toBitVec_toUInt16,
      UInt32.toBitVec_toUInt8, UInt32.toBitVec_shiftRight, UInt32.toBitVec_toUInt16,
      UInt32.toBitVec_and]
    apply BitVec.eq_of_getLsbD_eq
    intro i hi
    interval_cases i <;> simp
  have hfed : h.Fed [h.crc.toUInt8, (h.crc >>> 8).toUInt8]
      { h with hcrc := [h.crc.toUInt8, (h.crc >>> 8).toUInt8], hcrcPos := 2, state := .done } := by
    refine @Fed.step h { h with hcrc := [h.crc.toUInt8, y], hcrcPos := 1 } _ _ _ ?_
      (.arrived { h with hcrc := [h.crc.toUInt8, (h.crc >>> 8).toUInt8], hcrcPos := 2 } .done ?_
        .refl)
    · simp [feed, feedHcrc, hs, hpos, hxy]
    · simp only [feed, hs, feedHcrc, List.set_cons_succ, List.set_cons_zero,
        List.getD_cons_zero, List.getD_cons_succ, hcrc]
      simp
  exact List.append_nil [_, _] ▸ hfed.awaits (.done rfl)

theorem fed_field (state : GzState) (hstate : state ≠ .done) {after : UInt8 → GzState}
    (hfeed : ∀ (h : GzipHeader) (b : UInt8), h.state = state →
      h.feed b = (h.count b).feedField b after)
    {bytes : List UInt8} (hnul : 0 ∉ bytes) {h : GzipHeader} (hs : h.state = state)
    (hlen : h.fieldLen + bytes.length ≤ gzipMaxField) :
    h.Fed (bytes ++ [0]) { h with state := after h.flg, fieldLen := 0,
                                  crc := mzCrc32 h.crc (bytes ++ [0]) } := by
  induction bytes generalizing h with
  | nil => exact .arrived _ _ (by rw [hfeed h 0 hs]; rfl) .refl
  | cons b bytes ih =>
    simp only [List.mem_cons, not_or, List.length_cons] at hnul hlen
    have hb : b ≠ 0 := fun hb => hnul.1 hb.symm
    have hnext := ih hnul.2 (h := { h.count b with fieldLen := h.fieldLen + 1 }) hs
      (by simp only; omega)
    simp only [count, mzCrc32_cons] at hnext
    refine .step ?_ hnext
    rw [hfeed h b hs, feedField, if_pos hb]
    have hle : ¬ gzipMaxField < h.fieldLen + 1 := by omega
    simp [count, hs, hstate, hle]

theorem fed_extra {bytes : List UInt8} (hne : bytes ≠ []) {h : GzipHeader}
    (hs : h.state = .extra) (hlen : h.xpos + bytes.length = h.xlen.toNat) :
    h.Fed bytes { h with state := afterExtra h.flg, xpos := h.xlen.toNat,
                         crc := mzCrc32 h.crc bytes } := by
  induction bytes generalizing h with
  | nil => exact absurd rfl hne
  | cons b bytes ih =>
    simp only [List.length_cons] at hlen
    cases bytes with
    | nil =>
      have hlast : h.xpos + 1 = h.xlen.toNat := by simpa using hlen
      refine .arrived { h.count b with xpos := h.xlen.toNat } _ ?_ .refl
      simp [feed, hs, feedExtra, count, hlast]
    | cons b' bytes =>
      have hlt : h.xpos + 1 < h.xlen.toNat := by
        simp only [List.length_cons] at hlen
        omega
      have hnext := ih (by simp) (h := { h.count b with xpos := h.xpos + 1 }) hs
        (by simp only [List.length_cons, count] at hlen ⊢; omega)
      simp only [count, mzCrc32_cons] at hnext
      refine .step ?_ hnext
      simp [feed, hs, feedExtra, count, hlt]

end GzipHeader

namespace GzipFields

open GzipHeader

variable (g : GzipFields)

/-- The parser about to read the field of `state`, the bytes `seen` read. -/
structure Before (state : GzState) (seen : List UInt8) (h : GzipHeader) : Prop where
  state_eq : h.state = state
  flg : h.flg = g.flg
  crc : h.crc = mzCrc32 0 seen
  fieldLen : h.fieldLen = 0
  hcrcPos : h.hcrcPos = 0
  hcrc : h.hcrc.length = 2

variable {g}

theorem Before.awaits_hcrc {h : GzipHeader} (hb : g.Before (afterComment g.flg) g.covered h) :
    h.Awaits g.hcrcPart := by
  have hs := hb.state_eq
  unfold afterComment at hs
  unfold hcrcPart
  split_ifs at hs ⊢ with hflag
  · rw [← hb.crc]
    exact GzipHeader.awaits_hcrc hs hb.hcrcPos hb.hcrc
  · exact .done hs

theorem Before.fed_comment {h : GzipHeader}
    (hb : g.Before (afterName g.flg) (g.fixedPart ++ g.extraPart ++ g.namePart) h) :
    ∃ h', h.Fed g.commentPart h' ∧ g.Before (afterComment g.flg) g.covered h' := by
  have hs := hb.state_eq
  unfold afterName at hs
  unfold covered commentPart
  split_ifs at hs ⊢ with hflag
  · refine ⟨_, fed_field .comment (by simp) (fun h b hs => by rw [feed, hs])
      g.comment_nonzero hs (by rw [hb.fieldLen]; simpa using g.comment_length),
      by simp [hb.flg], hb.flg, ?_, rfl, hb.hcrcPos, hb.hcrc⟩
    simp only [hb.crc, mzCrc32_append]
  · refine ⟨h, .refl, hs, hb.flg, ?_, hb.fieldLen, hb.hcrcPos, hb.hcrc⟩
    rw [hb.crc, List.append_nil]

theorem Before.fed_name {h : GzipHeader}
    (hb : g.Before (afterExtra g.flg) (g.fixedPart ++ g.extraPart) h) :
    ∃ h', h.Fed g.namePart h' ∧
      g.Before (afterName g.flg) (g.fixedPart ++ g.extraPart ++ g.namePart) h' := by
  have hs := hb.state_eq
  unfold afterExtra at hs
  unfold namePart
  split_ifs at hs ⊢ with hflag
  · refine ⟨_, fed_field .name (by simp) (fun h b hs => by rw [feed, hs])
      g.name_nonzero hs (by rw [hb.fieldLen]; simpa using g.name_length),
      by simp [hb.flg], hb.flg, ?_, rfl, hb.hcrcPos, hb.hcrc⟩
    simp only [hb.crc, mzCrc32_append]
  · refine ⟨h, .refl, hs, hb.flg, ?_, hb.fieldLen, hb.hcrcPos, hb.hcrc⟩
    rw [hb.crc, List.append_nil]

theorem xlen_eq {n : ℕ} (hn : n < 2 ^ 16) :
    ((UInt8.ofNat (n % 256)).toUInt16 ||| ((UInt8.ofNat (n / 256)).toUInt16 <<< 8)).toNat = n := by
  simp only [UInt16.toNat_or, UInt16.toNat_shiftLeft, UInt8.toNat_toUInt16, UInt8.toNat_ofNat']
  rw [Nat.mod_eq_of_lt (show n % 256 < 2 ^ 8 by omega),
    Nat.mod_eq_of_lt (show n / 256 < 2 ^ 8 by omega),
    show (8 : UInt16).toNat % 16 = 8 from rfl,
    Nat.mod_eq_of_lt (show (n / 256) <<< 8 < 2 ^ 16 by rw [Nat.shiftLeft_eq]; omega), Nat.or_comm,
    ← Nat.shiftLeft_add_eq_or_of_lt (show n % 256 < 2 ^ 8 by omega), Nat.shiftLeft_eq]
  omega

theorem Before.fed_extra {h : GzipHeader} (hb : g.Before (afterFixed g.flg) g.fixedPart h)
    (hpos : h.xpos = 0) (hlen : h.xlenPos = 0) (hzero : h.xlen = 0) :
    ∃ h', h.Fed g.extraPart h' ∧ g.Before (afterExtra g.flg) (g.fixedPart ++ g.extraPart) h' := by
  have hs := hb.state_eq
  unfold afterFixed at hs
  by_cases hflag : g.flg &&& gzExtra ≠ 0
  · rw [if_pos hflag] at hs
    have hextra : g.extraPart = [UInt8.ofNat (g.extra.length % 256),
        UInt8.ofNat (g.extra.length / 256)] ++ g.extra := if_pos hflag
    have hxlen := xlen_eq g.extra_length
    rw [hextra]
    generalize UInt8.ofNat (g.extra.length % 256) = lo at hxlen ⊢
    generalize UInt8.ofNat (g.extra.length / 256) = hi at hxlen ⊢
    generalize hx : lo.toUInt16 ||| hi.toUInt16 <<< 8 = x at hxlen
    have hlens : h.Fed [lo, hi] { h with
        crc := mzCrc32 (mzCrc32 h.crc [lo]) [hi], xlen := x, xlenPos := 2
        state := if 0 < x then .extra else afterExtra h.flg } := by
      refine @Fed.step h { h.count lo with xlen := lo.toUInt16, xlenPos := 1 } _ lo _
        (by simp [feed, hs, feedExtraLen, count, hlen, hzero]) ?_
      exact .arrived { h.count lo with
          crc := mzCrc32 (mzCrc32 h.crc [lo]) [hi], xlen := x, xlenPos := 2 }
        (if 0 < x then .extra else afterExtra h.flg)
        (by simp [feed, hs, feedExtraLen, count, hx]) .refl
    have hseen : mzCrc32 (mzCrc32 h.crc [lo]) [hi] = mzCrc32 0 (g.fixedPart ++ [lo, hi]) := by
      simp [hb.crc, mzCrc32_append]
    by_cases hnil : g.extra = []
    · have hx0 : ¬ 0 < x := by
        rw [UInt16.lt_iff_toNat_lt, hxlen, hnil]
        simp
      rw [if_neg hx0] at hlens
      rw [hnil, List.append_nil]
      exact ⟨_, hlens, by simp [hb.flg], hb.flg, hseen, hb.fieldLen, hb.hcrcPos, hb.hcrc⟩
    · have hx0 : 0 < x := by
        rw [UInt16.lt_iff_toNat_lt, hxlen]
        exact List.length_pos_iff.mpr hnil
      rw [if_pos hx0] at hlens
      refine ⟨_, hlens.trans (GzipHeader.fed_extra hnil rfl (by simp [hpos, hxlen])),
        by simp [hb.flg], hb.flg, ?_, hb.fieldLen, hb.hcrcPos, hb.hcrc⟩
      simp only [hseen, ← mzCrc32_append]
  · rw [if_neg hflag] at hs
    have hextra : g.extraPart = [] := if_neg hflag
    rw [hextra, List.append_nil]
    exact ⟨h, .refl, hs, hb.flg, hb.crc, hb.fieldLen, hb.hcrcPos, hb.hcrc⟩

theorem fed_fixed_byte {P : GzipHeader → Prop} {h : GzipHeader} {b : UInt8} {rest : List UInt8}
    (n : ℕ) (hs : h.state = .fixed) (hpos : h.fixedPos = n) (hb : FixedAllows n b)
    (next : ∃ h', (h.afterFixedByte b).Fed rest h' ∧ P h') :
    ∃ h', h.Fed (b :: rest) h' ∧ P h' := by
  obtain ⟨h', hnext, hP⟩ := next
  exact ⟨h', .step (feed_fixed hs (hpos ▸ hb)) hnext, hP⟩

theorem fixedAllows_free {n : ℕ} (hn : 4 ≤ n) (b : UInt8) : FixedAllows n b := by
  constructor <;> omega

/-- The fixed part ends before the first of the optional fields. -/
theorem fed_fixed (g : GzipFields) : ∃ h, gzipHeaderInit.Fed g.fixedPart h ∧
    g.Before (afterFixed g.flg) g.fixedPart h ∧ h.xpos = 0 ∧ h.xlenPos = 0 ∧ h.xlen = 0 := by
  obtain ⟨m0, m1, m2, m3, hm⟩ : ∃ a b c d, g.mtime = [a, b, c, d] := by
    have hlen := g.mtime_length
    match hmt : g.mtime, hlen with
    | [a, b, c, d], _ => exact ⟨a, b, c, d, rfl⟩
  have hbytes : g.fixedPart =
      [0x1F, 0x8B, 8, g.flg, m0, m1, m2, m3, g.xfl, g.os] := by simp [fixedPart, hm]
  rw [hbytes]
  refine fed_fixed_byte 0 rfl rfl (by constructor <;> simp) ?_
  refine fed_fixed_byte 1 rfl rfl (by constructor <;> simp) ?_
  refine fed_fixed_byte 2 rfl rfl (by constructor <;> simp) ?_
  refine fed_fixed_byte 3 rfl rfl (by constructor <;> simp [g.reserved_zero]) ?_
  refine fed_fixed_byte 4 rfl rfl (fixedAllows_free (by omega) _) ?_
  refine fed_fixed_byte 5 rfl rfl (fixedAllows_free (by omega) _) ?_
  refine fed_fixed_byte 6 rfl rfl (fixedAllows_free (by omega) _) ?_
  refine fed_fixed_byte 7 rfl rfl (fixedAllows_free (by omega) _) ?_
  refine fed_fixed_byte 8 rfl rfl (fixedAllows_free (by omega) _) ?_
  refine fed_fixed_byte 9 rfl rfl (fixedAllows_free (by omega) _) ?_
  refine ⟨_, .refl, ⟨rfl, rfl, ?_, rfl, rfl, rfl⟩, rfl, rfl, rfl⟩
  simp only [afterFixedByte, count, gzipHeaderInit, mzCrc32_append]
  rfl

theorem fed_covered (g : GzipFields) : ∃ h, gzipHeaderInit.Fed g.covered h ∧
    g.Before (afterComment g.flg) g.covered h := by
  obtain ⟨h1, hfixed, hb1, hpos, hlen, hzero⟩ := g.fed_fixed
  obtain ⟨h2, hextra, hb2⟩ := hb1.fed_extra hpos hlen hzero
  obtain ⟨h3, hname, hb3⟩ := hb2.fed_name
  obtain ⟨h4, hcomment, hb4⟩ := hb3.fed_comment
  exact ⟨h4, ((hfixed.trans hextra).trans hname).trans hcomment, hb4⟩

theorem awaits_bytes (g : GzipFields) : gzipHeaderInit.Awaits g.bytes := by
  obtain ⟨h, hfed, hb⟩ := g.fed_covered
  exact hfed.awaits hb.awaits_hcrc

end GzipFields

/-- The fields of the header that an encoder writes: none but the unknown system. -/
def plainFields : GzipFields where
  flg := 0
  mtime := [0, 0, 0, 0]
  xfl := 0
  os := 255
  extra := []
  name := []
  comment := []
  reserved_zero := by decide
  mtime_length := rfl
  extra_length := by simp
  name_nonzero := by simp
  name_length := Nat.zero_le _
  comment_nonzero := by simp
  comment_length := Nat.zero_le _

theorem plainFields_bytes : plainFields.bytes = gzipWriteHeader := by decide

end Zukomp
