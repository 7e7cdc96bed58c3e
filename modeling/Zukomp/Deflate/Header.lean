import Zukomp.Deflate.Gzip

/-! # The headers that the gzip parser accepts

Fed from its start, the parser completes exactly at the end of a well-formed header. Any other
string fails at the first byte that no header continues with, save that the header checksum is
compared at its second byte.
-/

namespace Zukomp

/-- How feeding a string comes to an end, with the bytes fed. -/
inductive HeaderEnd where
  | complete (read : ℕ)
  | failed (status : Status) (read : ℕ)
  | pending
  deriving DecidableEq

/-- Feed the parser byte by byte, up to the first error or completion. -/
def GzipHeader.feedAll (h : GzipHeader) (read : ℕ) : List UInt8 → HeaderEnd
  | [] => .pending
  | b :: rest => match h.feed b with
    | (.ok, true, _) => .complete (read + 1)
    | (.ok, false, h') => h'.feedAll (read + 1) rest
    | (st, _, _) => .failed st (read + 1)

/-- The first `k` bytes are a header. -/
def HeaderAt (bytes : List UInt8) (k : ℕ) : Prop :=
  k ≤ bytes.length ∧ ∃ g : GzipFields, g.bytes = bytes.take k

/-- A header begins with these bytes. -/
def BeginsHeader (bytes : List UInt8) : Prop := ∃ g : GzipFields, bytes <+: g.bytes

/-- Behind the first `j` bytes stands the checksum of a header. -/
def ChecksumAt (bytes : List UInt8) (j : ℕ) : Prop :=
  j ≤ bytes.length ∧ ∃ g : GzipFields, g.flg &&& gzHcrc ≠ 0 ∧ g.covered = bytes.take j

/-- The end of a string that is fed to the parser of RFC 1952's headers. -/
structure ParsesHeader (bytes : List UInt8) (r : HeaderEnd) : Prop where
  complete : ∀ k, r = .complete k ↔ HeaderAt bytes k
  pending : BeginsHeader bytes → (∀ k, ¬ HeaderAt bytes k) → r = .pending
  fails : ¬ BeginsHeader bytes → (∀ k, ¬ HeaderAt bytes k) →
    ∃ k < bytes.length, BeginsHeader (bytes.take k) ∧ ¬ BeginsHeader (bytes.take (k + 1)) ∧
      ((∀ j, ¬ ChecksumAt bytes j) ∧ r = .failed .errInvalidData (k + 1) ∨
        ∃ j, ChecksumAt bytes j ∧ j ≤ k ∧ k < j + 2 ∧
          r = if j + 2 ≤ bytes.length then .failed .errChecksum (j + 2) else .pending)

namespace GzipFields

theorem covered_beginsHeader (g : GzipFields) : BeginsHeader g.covered := ⟨g, List.prefix_append ..⟩

end GzipFields

theorem BeginsHeader.mono {p q : List UInt8} (h : BeginsHeader q) (hp : p <+: q) :
    BeginsHeader p := by
  obtain ⟨g, hg⟩ := h
  exact ⟨g, hp.trans hg⟩

/-! ## The fixed part -/

/-- Up to ten bytes with the values that their places ask for. -/
structure FixedBytes (x : List UInt8) : Prop where
  magic : x.take 3 <+: [0x1F, 0x8B, 8]
  reserved : ∀ flg, x[3]? = some flg → flg &&& gzReserved = 0

theorem FixedBytes.fields {x : List UInt8} (h : FixedBytes x) (hlen : x.length = gzipHeaderLen) :
    ∃ g : GzipFields, g.fixedPart = x ∧ (∀ flg, x[3]? = some flg → g.flg = flg) ∧ g.name = [] ∧
      g.comment = [] := by
  match x, hlen with
  | [a, b, c, flg, m0, m1, m2, m3, xfl, os], _ =>
    have hmagic := h.magic.eq_of_length (by simp)
    simp only [List.take_succ_cons, List.take_zero, List.cons.injEq, and_true] at hmagic
    obtain ⟨rfl, rfl, rfl⟩ := hmagic
    exact ⟨{ flg := flg, mtime := [m0, m1, m2, m3], xfl := xfl, os := os
             extra := [], name := [], comment := []
             reserved_zero := h.reserved flg rfl
             mtime_length := rfl, extra_length := by simp
             name_nonzero := by simp, name_length := Nat.zero_le _
             comment_nonzero := by simp, comment_length := Nat.zero_le _ },
      rfl, fun _ hf => Option.some.inj hf, rfl, rfl⟩

/-- Fewer can be completed. -/
theorem FixedBytes.begins {x : List UInt8} (h : FixedBytes x) (hlen : x.length < gzipHeaderLen) :
    BeginsHeader x := by
  have hall : FixedBytes (x ++ gzipWriteHeader.drop x.length) := by
    constructor
    · have hmagic := h.magic
      match x with
      | [] => decide
      | [_] => simpa [gzipWriteHeader] using hmagic
      | [_, _] => simpa [gzipWriteHeader] using hmagic
      | _ :: _ :: _ :: _ => simpa using hmagic
    · intro flg hflg
      rcases Nat.lt_or_ge 3 x.length with hlt | hge
      · rw [List.getElem?_append_left hlt] at hflg
        exact h.reserved flg hflg
      · rw [List.getElem?_append_right hge, List.getElem?_drop,
          show x.length + (3 - x.length) = 3 by omega] at hflg
        obtain rfl : (0 : UInt8) = flg := Option.some.inj hflg
        rfl
  have hten : (x ++ gzipWriteHeader.drop x.length).length = gzipHeaderLen := by
    rw [List.length_append, List.length_drop]
    change x.length + (gzipHeaderLen - x.length) = gzipHeaderLen
    omega
  obtain ⟨g, hg, -⟩ := hall.fields hten
  refine ⟨g, (List.prefix_append x (gzipWriteHeader.drop x.length)).trans ?_⟩
  rw [← hg, GzipFields.bytes, GzipFields.covered]
  simp only [List.append_assoc]
  exact List.prefix_append ..

/-! ## What the parser has seen -/

open GzipFields

/-- The parser in mid-header, `p` read: in the fixed part, between or in the optional fields, or
in the checksum. A field that is still read has come as far as `g` has it. -/
inductive Seen (h : GzipHeader) : List UInt8 → Prop
  | fixed {x : List UInt8} (state : h.state = .fixed) (pos : h.fixedPos = x.length)
      (short : x.length < gzipHeaderLen) (bytes : FixedBytes x)
      (flg : ∀ flg, x[3]? = some flg → h.flg = flg) (crc : h.crc = mzCrc32 0 x)
      (xlen : h.xlen = 0) (xlenPos : h.xlenPos = 0) (xpos : h.xpos = 0) (fieldLen : h.fieldLen = 0)
      (hcrcPos : h.hcrcPos = 0) (hcrc : h.hcrc.length = 2) : Seen h x
  | extraLen {g : GzipFields} {x : List UInt8} (before : g.Before .extraLen (g.fixedPart ++ x) h)
      (flag : g.flg &&& gzExtra ≠ 0) (name : g.name = []) (comment : g.comment = [])
      (pos : h.xlenPos = x.length) (short : x.length < 2)
      (xlen : h.xlen = (x.headD 0).toUInt16) (xpos : h.xpos = 0) : Seen h (g.fixedPart ++ x)
  | extra {g : GzipFields} {lo hi : UInt8} {x : List UInt8}
      (before : g.Before .extra (g.fixedPart ++ lo :: hi :: x) h)
      (flag : g.flg &&& gzExtra ≠ 0) (name : g.name = []) (comment : g.comment = [])
      (xlen : h.xlen = lo.toUInt16 ||| hi.toUInt16 <<< 8) (xpos : h.xpos = x.length)
      (short : x.length < h.xlen.toNat) : Seen h (g.fixedPart ++ lo :: hi :: x)
  | name {g : GzipFields} (state : h.state = .name) (flag : g.flg &&& gzName ≠ 0)
      (comment : g.comment = []) (flg : h.flg = g.flg)
      (crc : h.crc = mzCrc32 0 (g.fixedPart ++ g.extraPart ++ g.name))
      (fieldLen : h.fieldLen = g.name.length) (hcrcPos : h.hcrcPos = 0)
      (hcrc : h.hcrc.length = 2) : Seen h (g.fixedPart ++ g.extraPart ++ g.name)
  | comment {g : GzipFields} (state : h.state = .comment) (flag : g.flg &&& gzComment ≠ 0)
      (flg : h.flg = g.flg)
      (crc : h.crc = mzCrc32 0 (g.fixedPart ++ g.extraPart ++ g.namePart ++ g.comment))
      (fieldLen : h.fieldLen = g.comment.length) (hcrcPos : h.hcrcPos = 0)
      (hcrc : h.hcrc.length = 2) : Seen h (g.fixedPart ++ g.extraPart ++ g.namePart ++ g.comment)
  | checksum {g : GzipFields} (before : g.Before .hcrc g.covered h) (flag : g.flg &&& gzHcrc ≠ 0) :
      Seen h g.covered
  | half {g : GzipFields} {b y : UInt8} (state : h.state = .hcrc) (flag : g.flg &&& gzHcrc ≠ 0)
      (crc : h.crc = mzCrc32 0 g.covered) (hcrcPos : h.hcrcPos = 1) (hcrc : h.hcrc = [b, y]) :
      Seen h (g.covered ++ [b])
  | done {g : GzipFields} (state : h.state = .done) : Seen h g.bytes

variable {h : GzipHeader} {g : GzipFields}

theorem seen_init : Seen gzipHeaderInit [] := by
  refine .fixed rfl rfl (by decide) ⟨List.nil_prefix, by simp⟩ (by simp) ?_ rfl rfl rfl rfl rfl rfl
  rfl

/-! ## From one field to the next -/

theorem seen_afterComment (hb : g.Before (afterComment g.flg) g.covered h) :
    Seen h g.covered := by
  unfold afterComment at hb
  split_ifs at hb with hflag
  · exact .checksum hb hflag
  · have hbytes : g.bytes = g.covered := by simp [bytes, hcrcPart, hflag]
    exact hbytes ▸ .done hb.state_eq

theorem seen_afterName (hcomment : g.comment = [])
    (hb : g.Before (afterName g.flg) (g.fixedPart ++ g.extraPart ++ g.namePart) h) :
    Seen h (g.fixedPart ++ g.extraPart ++ g.namePart) := by
  unfold afterName at hb
  split_ifs at hb with hflag
  · have hnil : g.fixedPart ++ g.extraPart ++ g.namePart =
        g.fixedPart ++ g.extraPart ++ g.namePart ++ g.comment := by rw [hcomment, List.append_nil]
    rw [hnil] at hb ⊢
    exact .comment hb.state_eq hflag hb.flg hb.crc (by simp [hb.fieldLen, hcomment]) hb.hcrcPos
      hb.hcrc
  · have hcovered : g.covered = g.fixedPart ++ g.extraPart ++ g.namePart := by
      simp [covered, commentPart, hflag]
    rw [← hcovered] at hb ⊢
    exact seen_afterComment hb

theorem seen_afterExtra (hname : g.name = []) (hcomment : g.comment = [])
    (hb : g.Before (afterExtra g.flg) (g.fixedPart ++ g.extraPart) h) :
    Seen h (g.fixedPart ++ g.extraPart) := by
  unfold afterExtra at hb
  split_ifs at hb with hflag
  · have hnil : g.fixedPart ++ g.extraPart = g.fixedPart ++ g.extraPart ++ g.name := by
      rw [hname, List.append_nil]
    rw [hnil] at hb ⊢
    exact .name hb.state_eq hflag hcomment hb.flg hb.crc (by simp [hb.fieldLen, hname]) hb.hcrcPos
      hb.hcrc
  · have hnil : g.namePart = [] := if_neg hflag
    have heq : g.fixedPart ++ g.extraPart = g.fixedPart ++ g.extraPart ++ g.namePart := by
      rw [hnil, List.append_nil]
    rw [heq] at hb ⊢
    exact seen_afterName hcomment hb

theorem seen_afterFixed (hname : g.name = []) (hcomment : g.comment = [])
    (hb : g.Before (afterFixed g.flg) g.fixedPart h) (hpos : h.xpos = 0) (hlen : h.xlenPos = 0)
    (hzero : h.xlen = 0) : Seen h g.fixedPart := by
  unfold afterFixed at hb
  split_ifs at hb with hflag
  · rw [← List.append_nil g.fixedPart] at hb ⊢
    exact .extraLen hb hflag hname hcomment hlen (by simp) hzero hpos
  · have hnil : g.extraPart = [] := if_neg hflag
    have heq : g.fixedPart = g.fixedPart ++ g.extraPart := by rw [hnil, List.append_nil]
    rw [heq] at hb ⊢
    exact seen_afterExtra hname hcomment hb

/-! ## One byte -/

/-- What a byte does to a parser that has read `p`: it goes on, finds an error of the data
outside the checksum, or finds the checksum wrong at its second byte. -/
def FeedsTo (h : GzipHeader) (p : List UInt8) (b : UInt8) : Prop :=
  (∃ h', h.feed b = (.ok, h'.state == .done, h') ∧ Seen h' (p ++ [b])) ∨
    (∃ h', h.feed b = (.errInvalidData, false, h') ∧ h.state ≠ .hcrc) ∨
    ∃ h', h.feed b = (.errChecksum, false, h') ∧
      ∃ (g : GzipFields) (x : UInt8), g.flg &&& gzHcrc ≠ 0 ∧ p = g.covered ++ [x]

section Bytes

variable {x : List UInt8} {b : UInt8}

theorem FixedBytes.snoc (h : FixedBytes x) (hb : GzipHeader.FixedAllows x.length b) :
    FixedBytes (x ++ [b]) := by
  constructor
  · have hmagic := h.magic
    match x with
    | [] => simp [hb.id1 rfl]
    | [a] =>
      simp only [List.take_succ_cons, List.take_nil, List.cons_prefix_cons] at hmagic
      simp [hmagic.1, hb.id2 rfl]
    | [a, c] =>
      simp only [List.take_succ_cons, List.take_nil, List.cons_prefix_cons] at hmagic
      simp [hmagic.1, hmagic.2.1, hb.method rfl]
    | _ :: _ :: _ :: _ => simpa using hmagic
  · intro flg hflg
    rcases Nat.lt_trichotomy 3 x.length with hlt | heq | hgt
    · rw [List.getElem?_append_left hlt] at hflg
      exact h.reserved flg hflg
    · rw [List.getElem?_append_right heq.ge, ← heq] at hflg
      obtain rfl : b = flg := Option.some.inj hflg
      exact hb.reserved heq.symm
    · rw [List.getElem?_eq_none (by rw [List.length_append, List.length_singleton]; omega)] at hflg
      cases hflg

theorem GzipFields.Before.snoc {state : GzState} {p : List UInt8} (hb : g.Before state p h)
    {h' : GzipHeader} {state' : GzState} (hs : h'.state = state') (hflg : h'.flg = h.flg)
    (hcrc : h'.crc = mzCrc32 h.crc [b]) (hlen : h'.fieldLen = 0) (hpos : h'.hcrcPos = h.hcrcPos)
    (hh : h'.hcrc = h.hcrc) : g.Before state' (p ++ [b]) h' :=
  ⟨hs, hflg.trans hb.flg, by rw [hcrc, hb.crc, mzCrc32_append], hlen, hpos.trans hb.hcrcPos,
    hh ▸ hb.hcrc⟩

/-- A byte of the fixed part. -/
theorem fixed_feedsTo (state : h.state = .fixed) (pos : h.fixedPos = x.length)
    (short : x.length < gzipHeaderLen) (bytes : FixedBytes x)
    (flg : ∀ flg, x[3]? = some flg → h.flg = flg) (crc : h.crc = mzCrc32 0 x)
    (xlen : h.xlen = 0) (xlenPos : h.xlenPos = 0) (xpos : h.xpos = 0) (fieldLen : h.fieldLen = 0)
    (hcrcPos : h.hcrcPos = 0) (hcrc : h.hcrc.length = 2) : FeedsTo h x b := by
  by_cases hb : GzipHeader.FixedAllows h.fixedPos b
  · refine .inl ⟨_, GzipHeader.feed_fixed state hb, ?_⟩
    have hnext := bytes.snoc (pos ▸ hb)
    have hlen : (x ++ [b]).length = x.length + 1 := by simp
    have hcrc' : (h.afterFixedByte b).crc = mzCrc32 0 (x ++ [b]) := by
      simp [GzipHeader.afterFixedByte, GzipHeader.count, crc, mzCrc32_append]
    have hflg : ∀ flg, (x ++ [b])[3]? = some flg → (h.afterFixedByte b).flg = flg := by
      intro f hf
      simp only [GzipHeader.afterFixedByte, pos]
      rcases Nat.lt_trichotomy 3 x.length with hlt | heq | hgt
      · rw [List.getElem?_append_left hlt] at hf
        rw [if_neg (by omega)]
        exact flg f hf
      · rw [List.getElem?_append_right heq.ge, ← heq] at hf
        rw [if_pos heq.symm]
        exact Option.some.inj hf
      · rw [List.getElem?_eq_none (by omega)] at hf
        cases hf
    by_cases hlt : x.length + 1 < gzipHeaderLen
    · exact .fixed (by simp [GzipHeader.afterFixedByte, pos, hlt])
        (by simp [GzipHeader.afterFixedByte, pos]) (by omega) hnext hflg hcrc' xlen xlenPos xpos
        fieldLen hcrcPos hcrc
    · obtain ⟨g, hg, hgflg, hname, hcomment⟩ := hnext.fields (by omega)
      have hflg' : (h.afterFixedByte b).flg = g.flg := by
        obtain ⟨f, hf⟩ : ∃ f, (x ++ [b])[3]? = some f :=
          ⟨_, List.getElem?_eq_getElem (by rw [hlen]; unfold gzipHeaderLen at hlt; omega)⟩
        rw [hflg f hf, hgflg f hf]
      have hstate : (h.afterFixedByte b).state = afterFixed g.flg := by
        rw [← hflg']
        simp [GzipHeader.afterFixedByte, pos, hlt]
      rw [← hg] at hcrc' ⊢
      exact seen_afterFixed hname hcomment ⟨hstate, hflg', hcrc', fieldLen, hcrcPos, hcrc⟩ xpos
        xlenPos xlen
  · obtain ⟨h', hf⟩ := GzipHeader.feed_fixed_error state hb
    exact .inr (.inl ⟨h', hf, by simp [state]⟩)

theorem xlen_bytes (lo hi : UInt8) :
    (lo.toUInt16 ||| hi.toUInt16 <<< 8).toNat = lo.toNat + 256 * hi.toNat ∧
      UInt8.ofNat ((lo.toUInt16 ||| hi.toUInt16 <<< 8).toNat % 256) = lo ∧
      UInt8.ofNat ((lo.toUInt16 ||| hi.toUInt16 <<< 8).toNat / 256) = hi := by
  have hlo := lo.toNat_lt
  have hhi := hi.toNat_lt
  have heq := xlen_eq (n := lo.toNat + 256 * hi.toNat) (by omega)
  rw [show (lo.toNat + 256 * hi.toNat) % 256 = lo.toNat by omega,
    show (lo.toNat + 256 * hi.toNat) / 256 = hi.toNat by omega, UInt8.ofNat_toNat,
    UInt8.ofNat_toNat] at heq
  rw [heq, show (lo.toNat + 256 * hi.toNat) % 256 = lo.toNat by omega,
    show (lo.toNat + 256 * hi.toNat) / 256 = hi.toNat by omega, UInt8.ofNat_toNat,
    UInt8.ofNat_toNat]
  exact ⟨rfl, rfl, rfl⟩

/-- The header with the extra field that has been read. -/
def GzipFields.withExtra (g : GzipFields) (extra : List UInt8) (h : extra.length < 2 ^ 16) :
    GzipFields :=
  { g with extra := extra, extra_length := h }

theorem GzipFields.withExtra_extraPart {lo hi : UInt8} (flag : g.flg &&& gzExtra ≠ 0)
    (hx : x.length < 2 ^ 16) (hlen : x.length = (lo.toUInt16 ||| hi.toUInt16 <<< 8).toNat) :
    (g.withExtra x hx).extraPart = lo :: hi :: x := by
  have hbytes := xlen_bytes lo hi
  rw [← hlen] at hbytes
  rw [extraPart, if_pos (show (g.withExtra x hx).flg &&& gzExtra ≠ 0 from flag)]
  simp only [withExtra, hbytes.2.1, hbytes.2.2]
  rfl

theorem seen_extra {lo hi : UInt8} (flag : g.flg &&& gzExtra ≠ 0) (name : g.name = [])
    (comment : g.comment = [])
    (hb : g.Before (afterExtra g.flg) (g.fixedPart ++ lo :: hi :: x) h)
    (hlen : x.length = (lo.toUInt16 ||| hi.toUInt16 <<< 8).toNat) :
    Seen h (g.fixedPart ++ lo :: hi :: x) := by
  have hx : x.length < 2 ^ 16 := hlen ▸ UInt16.toNat_lt _
  have hpart := withExtra_extraPart flag hx hlen
  have hseen := @seen_afterExtra h (g.withExtra x hx) name comment
  rw [hpart] at hseen
  exact hseen ⟨hb.state_eq, hb.flg, hb.crc, hb.fieldLen, hb.hcrcPos, hb.hcrc⟩

/-- A byte of the length of the extra field. -/
theorem extraLen_feedsTo (before : g.Before .extraLen (g.fixedPart ++ x) h)
    (flag : g.flg &&& gzExtra ≠ 0) (name : g.name = []) (comment : g.comment = [])
    (pos : h.xlenPos = x.length) (short : x.length < 2) (xlen : h.xlen = (x.headD 0).toUInt16)
    (xpos : h.xpos = 0) : FeedsTo h (g.fixedPart ++ x) b := by
  rw [FeedsTo, List.append_assoc]
  refine .inl ?_
  match x, short with
  | [], _ =>
    refine ⟨{ h.count b with xlen := b.toUInt16, xlenPos := 1 }, ?_,
      .extraLen (x := [b]) ?_ flag name comment rfl (by simp) rfl xpos⟩
    · have hs : h.state = .extraLen := before.state_eq
      have hx : h.xlen = 0 := xlen
      simp [GzipHeader.feed, GzipHeader.feedExtraLen, GzipHeader.count, hs, pos, hx]
    · rw [List.append_nil] at before
      exact before.snoc before.state_eq rfl rfl before.fieldLen rfl rfl
  | [lo], _ =>
    have hx : h.xlen = lo.toUInt16 := xlen
    have hs : h.state = .extraLen := before.state_eq
    refine ⟨{ h.count b with
      xlen := lo.toUInt16 ||| b.toUInt16 <<< 8
      xlenPos := 2
      state := if (0 : UInt16) < lo.toUInt16 ||| b.toUInt16 <<< 8 then .extra else afterExtra h.flg }, ?_, ?_⟩
    · simp [GzipHeader.feed, GzipHeader.feedExtraLen, GzipHeader.count, GzipHeader.arrive, hs, pos,
        hx]
    · by_cases hzero : (0 : UInt16) < lo.toUInt16 ||| b.toUInt16 <<< 8
      · rw [if_pos hzero]
        refine .extra (x := []) ?_ flag name comment rfl xpos ?_
        · rw [show g.fixedPart ++ lo :: b :: [] = g.fixedPart ++ [lo] ++ [b] by simp]
          exact before.snoc rfl rfl rfl before.fieldLen rfl rfl
        · exact UInt16.lt_iff_toNat_lt.mp hzero
      · rw [if_neg hzero]
        refine seen_extra (x := []) flag name comment ?_ ?_
        · rw [show g.fixedPart ++ [lo, b] = g.fixedPart ++ [lo] ++ [b] by simp, ← before.flg]
          exact before.snoc rfl rfl rfl before.fieldLen rfl rfl
        · rw [UInt16.lt_iff_toNat_lt, Nat.not_lt] at hzero
          exact (Nat.le_zero.mp hzero).symm

/-- A byte of the extra field. -/
theorem extra_feedsTo {lo hi : UInt8} (before : g.Before .extra (g.fixedPart ++ lo :: hi :: x) h)
    (flag : g.flg &&& gzExtra ≠ 0) (name : g.name = []) (comment : g.comment = [])
    (xlen : h.xlen = lo.toUInt16 ||| hi.toUInt16 <<< 8) (xpos : h.xpos = x.length)
    (short : x.length < h.xlen.toNat) : FeedsTo h (g.fixedPart ++ lo :: hi :: x) b := by
  have hs : h.state = .extra := before.state_eq
  rw [FeedsTo, show g.fixedPart ++ lo :: hi :: x ++ [b] = g.fixedPart ++ lo :: hi :: (x ++ [b]) by
    simp]
  refine .inl ⟨{ h.count b with
    xpos := x.length + 1
    state := if x.length + 1 < h.xlen.toNat then .extra else afterExtra h.flg }, ?_, ?_⟩
  · by_cases hlt : x.length + 1 < h.xlen.toNat
    · simp [GzipHeader.feed, GzipHeader.feedExtra, GzipHeader.count, hs, xpos, hlt]
    · simp [GzipHeader.feed, GzipHeader.feedExtra, GzipHeader.count, GzipHeader.arrive, hs, xpos,
        hlt]
  · have hnext (state' : GzState) (h' : GzipHeader) (hstate : h'.state = state')
        (hflg : h'.flg = h.flg) (hcrc : h'.crc = mzCrc32 h.crc [b]) (hlen : h'.fieldLen = h.fieldLen)
        (hpos : h'.hcrcPos = h.hcrcPos) (hh : h'.hcrc = h.hcrc) :
        g.Before state' (g.fixedPart ++ lo :: hi :: (x ++ [b])) h' := by
      have := before.snoc (b := b) hstate hflg hcrc (hlen.trans before.fieldLen) hpos hh
      simpa using this
    by_cases hlt : x.length + 1 < h.xlen.toNat
    · rw [if_pos hlt]
      exact .extra (hnext _ _ rfl rfl rfl rfl rfl rfl) flag name comment xlen (by simp)
        (by rwa [List.length_append])
    · rw [if_neg hlt]
      refine seen_extra flag name comment (hnext _ _ ?_ rfl rfl rfl rfl rfl) ?_
      · rw [before.flg]
      · rw [← xlen, List.length_append, List.length_singleton]
        omega

/-- The parser behind a byte of a NUL-terminated field, and behind its NUL. -/
def GzipHeader.inField (h : GzipHeader) (b : UInt8) : GzipHeader :=
  { h.count b with fieldLen := h.fieldLen + 1 }

def GzipHeader.leaveField (h : GzipHeader) (after : UInt8 → GzState) : GzipHeader :=
  { h.count 0 with fieldLen := 0, state := after h.flg }

theorem field_feed {state : GzState} (hstate : state ≠ .done) {after : UInt8 → GzState}
    (hfeed : ∀ (h : GzipHeader) (b : UInt8), h.state = state →
      h.feed b = (h.count b).feedField b after) (hs : h.state = state) :
    b = 0 ∧ h.feed b = (.ok, (h.leaveField after).state == .done, h.leaveField after) ∨
      b ≠ 0 ∧ h.fieldLen + 1 ≤ gzipMaxField ∧
        h.feed b = (.ok, (h.inField b).state == .done, h.inField b) ∨
      ∃ h', h.feed b = (.errInvalidData, false, h') := by
  rw [hfeed h b hs, GzipHeader.feedField]
  by_cases hb : b = 0
  · rw [if_neg (not_not.mpr hb)]
    subst hb
    exact .inl ⟨rfl, rfl⟩
  · rw [if_pos hb]
    by_cases hlen : gzipMaxField < h.fieldLen + 1
    · exact .inr (.inr ⟨_, if_pos hlen⟩)
    · have hd : ((h.inField b).state == GzState.done) = false := by
        simpa [GzipHeader.inField, GzipHeader.count, hs] using hstate
      rw [hd]
      exact .inr (.inl ⟨hb, by omega, if_neg hlen⟩)

theorem name_feedsTo (state : h.state = .name) (flag : g.flg &&& gzName ≠ 0)
    (comment : g.comment = []) (flg : h.flg = g.flg)
    (crc : h.crc = mzCrc32 0 (g.fixedPart ++ g.extraPart ++ g.name))
    (fieldLen : h.fieldLen = g.name.length) (hcrcPos : h.hcrcPos = 0)
    (hcrc : h.hcrc.length = 2) : FeedsTo h (g.fixedPart ++ g.extraPart ++ g.name) b := by
  have hsum : (h.count b).crc = mzCrc32 0 (g.fixedPart ++ g.extraPart ++ (g.name ++ [b])) := by
    rw [← List.append_assoc, ← mzCrc32_append, ← crc]
    rfl
  rw [FeedsTo, List.append_assoc _ g.name]
  rcases field_feed (b := b) (by simp) (fun h b hs => by rw [GzipHeader.feed, hs]) state with
    ⟨rfl, hf⟩ | ⟨hb, hlen, hf⟩ | ⟨h', hf⟩
  · refine .inl ⟨_, hf, ?_⟩
    have hpart : g.namePart = g.name ++ [0] := if_pos flag
    rw [← hpart] at hsum ⊢
    exact seen_afterName comment ⟨flg ▸ rfl, flg, hsum, rfl, hcrcPos, hcrc⟩
  · have hnul : (0 : UInt8) ∉ g.name ++ [b] := by
      simpa [g.name_nonzero] using hb.symm
    have hlen' : (g.name ++ [b]).length = h.fieldLen + 1 := by simp [fieldLen]
    refine .inl ⟨_, hf, ?_⟩
    exact .name (h := h.inField b) (g := { g with
      name := g.name ++ [b], name_nonzero := hnul, name_length := hlen' ▸ hlen })
      state flag comment flg hsum hlen'.symm hcrcPos hcrc
  · exact .inr (.inl ⟨h', hf, by simp [state]⟩)

theorem comment_feedsTo (state : h.state = .comment) (flag : g.flg &&& gzComment ≠ 0)
    (flg : h.flg = g.flg)
    (crc : h.crc = mzCrc32 0 (g.fixedPart ++ g.extraPart ++ g.namePart ++ g.comment))
    (fieldLen : h.fieldLen = g.comment.length) (hcrcPos : h.hcrcPos = 0)
    (hcrc : h.hcrc.length = 2) :
    FeedsTo h (g.fixedPart ++ g.extraPart ++ g.namePart ++ g.comment) b := by
  have hsum : (h.count b).crc =
      mzCrc32 0 (g.fixedPart ++ g.extraPart ++ g.namePart ++ (g.comment ++ [b])) := by
    rw [← List.append_assoc, ← mzCrc32_append, ← crc]
    rfl
  rw [FeedsTo, List.append_assoc _ g.comment]
  rcases field_feed (b := b) (by simp) (fun h b hs => by rw [GzipHeader.feed, hs]) state with
    ⟨rfl, hf⟩ | ⟨hb, hlen, hf⟩ | ⟨h', hf⟩
  · refine .inl ⟨_, hf, ?_⟩
    have hpart : g.covered = g.fixedPart ++ g.extraPart ++ g.namePart ++ (g.comment ++ [0]) := by
      rw [covered, commentPart, if_pos flag]
    rw [← hpart] at hsum ⊢
    exact seen_afterComment ⟨flg ▸ rfl, flg, hsum, rfl, hcrcPos, hcrc⟩
  · have hnul : (0 : UInt8) ∉ g.comment ++ [b] := by
      simpa [g.comment_nonzero] using hb.symm
    have hlen' : (g.comment ++ [b]).length = h.fieldLen + 1 := by simp [fieldLen]
    refine .inl ⟨_, hf, ?_⟩
    exact .comment (h := h.inField b) (g := { g with
      comment := g.comment ++ [b], comment_nonzero := hnul, comment_length := hlen' ▸ hlen })
      state flag flg hsum hlen'.symm hcrcPos hcrc
  · exact .inr (.inl ⟨h', hf, by simp [state]⟩)

theorem checksum_bytes (crc : UInt32) (lo hi : UInt8)
    (heq : lo.toUInt16 ||| hi.toUInt16 <<< 8 = (crc &&& 0xFFFF).toUInt16) :
    lo = crc.toUInt8 ∧ hi = (crc >>> 8).toUInt8 := by
  have hbytes := xlen_bytes lo hi
  have hcrc : (crc &&& 0xFFFF).toUInt16.toNat = crc.toNat % 65536 := by
    rw [UInt32.toNat_toUInt16, UInt32.toNat_and]
    have hmask := Nat.and_two_pow_sub_one_eq_mod crc.toNat 16
    simp only [Nat.reducePow, Nat.reduceSub] at hmask
    rw [show (0xFFFF : UInt32).toNat = 65535 from rfl, hmask, Nat.mod_mod]
  rw [heq, hcrc] at hbytes
  obtain ⟨-, hlo, hhi⟩ := hbytes
  constructor
  · rw [← hlo, ← UInt8.toNat_inj, UInt8.toNat_ofNat', UInt32.toNat_toUInt8]
    omega
  · rw [← hhi, ← UInt8.toNat_inj, UInt8.toNat_ofNat', UInt32.toNat_toUInt8, UInt32.toNat_shiftRight,
      Nat.shiftRight_eq_div_pow]
    simp only [UInt32.reduceToNat, Nat.reduceMod, Nat.reducePow]
    omega

theorem half_feedsTo {x y : UInt8} (state : h.state = .hcrc) (flag : g.flg &&& gzHcrc ≠ 0)
    (crc : h.crc = mzCrc32 0 g.covered) (hcrcPos : h.hcrcPos = 1) (hcrc : h.hcrc = [x, y]) :
    FeedsTo h (g.covered ++ [x]) b := by
  by_cases hsum : x.toUInt16 ||| b.toUInt16 <<< 8 = (h.crc &&& 0xFFFF).toUInt16
  · obtain ⟨hlo, hhi⟩ := checksum_bytes _ _ _ hsum
    refine .inl ⟨{ h with hcrc := [x, b], hcrcPos := 2, state := .done }, ?_, ?_⟩
    · simp [GzipHeader.feed, GzipHeader.feedHcrc, GzipHeader.arrive, state, hcrcPos, hcrc, hsum]
    · have hbytes : g.covered ++ [x] ++ [b] = g.bytes := by
        rw [bytes, hcrcPart, if_pos flag, ← crc, ← hlo, ← hhi, List.append_assoc]
        rfl
      rw [hbytes]
      exact .done rfl
  · refine .inr (.inr ⟨{ h with hcrc := [x, b], hcrcPos := 2 }, ?_, g, x, flag, rfl⟩)
    simp only [GzipHeader.feed, GzipHeader.feedHcrc, state, hcrcPos, hcrc, List.set_cons_succ,
      List.set_cons_zero, List.getD_cons_zero, List.getD_cons_succ]
    rw [if_neg (by simp), if_pos hsum]

/-- Every byte that the parser is fed before it is done. -/
theorem Seen.feedsTo {p : List UInt8} (hp : Seen h p) (hs : h.state ≠ .done) (b : UInt8) :
    FeedsTo h p b := by
  cases hp with
  | fixed state pos short bytes flg crc xlen xlenPos xpos fieldLen hcrcPos hcrc =>
    exact fixed_feedsTo state pos short bytes flg crc xlen xlenPos xpos fieldLen hcrcPos hcrc
  | extraLen before flag name comment pos short xlen xpos =>
    exact extraLen_feedsTo before flag name comment pos short xlen xpos
  | extra before flag name comment xlen xpos short =>
    exact extra_feedsTo before flag name comment xlen xpos short
  | name state flag comment flg crc fieldLen hcrcPos hcrc =>
    exact name_feedsTo state flag comment flg crc fieldLen hcrcPos hcrc
  | comment state flag flg crc fieldLen hcrcPos hcrc =>
    exact comment_feedsTo state flag flg crc fieldLen hcrcPos hcrc
  | @checksum g before flag =>
    obtain ⟨x, y, hxy⟩ := List.length_eq_two.mp before.hcrc
    have hstate : h.state = .hcrc := before.state_eq
    refine .inl ⟨{ h with hcrc := [b, y], hcrcPos := 1 }, ?_,
      .half hstate flag before.crc rfl rfl⟩
    simp [GzipHeader.feed, GzipHeader.feedHcrc, hstate, before.hcrcPos, hxy]
  | half state flag crc hcrcPos hcrc => exact half_feedsTo state flag crc hcrcPos hcrc
  | done state => exact absurd state hs

end Bytes

/-! ## A whole string -/

theorem GzipFields.bytes_eq (g : GzipFields) :
    g.bytes = g.fixedPart ++ g.extraPart ++ g.namePart ++ g.commentPart ++ g.hcrcPart := rfl

/-- What has been read begins a header, unless the first byte of the checksum is wrong. -/
theorem Seen.begins {p : List UInt8} (hp : Seen h p) : BeginsHeader p ∨
    h.state = .hcrc ∧ ∃ (g : GzipFields) (b : UInt8), g.flg &&& gzHcrc ≠ 0 ∧ p = g.covered ++ [b] := by
  cases hp with
  | fixed state pos short bytes flg crc xlen xlenPos xpos fieldLen hcrcPos hcrc =>
    exact .inl (bytes.begins short)
  | @extraLen g x before flag name comment pos short xlen xpos =>
    refine .inl ?_
    have hzeros (lo : UInt8) : (List.replicate lo.toNat (0 : UInt8)).length = lo.toNat :=
      List.length_replicate
    have hlo (lo : UInt8) : (List.replicate lo.toNat (0 : UInt8)).length < 2 ^ 16 := by
      have := lo.toNat_lt
      rw [hzeros]
      omega
    have hext (lo : UInt8) : BeginsHeader (g.fixedPart ++ [lo]) := by
      have hsize : (List.replicate lo.toNat (0 : UInt8)).length
          = (lo.toUInt16 ||| (0 : UInt8).toUInt16 <<< 8).toNat := by
        rw [hzeros, (xlen_bytes lo 0).1]
        rfl
      have hpart := GzipFields.withExtra_extraPart flag (hlo lo) hsize
      refine ⟨g.withExtra _ (hlo lo), ?_⟩
      rw [bytes_eq, hpart]
      simp only [List.append_assoc]
      exact (List.prefix_append_right_inj _).mpr ⟨_, rfl⟩
    match x, short with
    | [], _ => exact (hext 0).mono (by simp)
    | [lo], _ => exact hext lo
  | @extra g lo hi x before flag name comment xlen xpos short =>
    refine .inl ?_
    set y := x ++ List.replicate (h.xlen.toNat - x.length) (0 : UInt8) with hy
    have hlen : y.length = h.xlen.toNat := by
      rw [hy, List.length_append, List.length_replicate]
      omega
    have hy16 : y.length < 2 ^ 16 := hlen ▸ UInt16.toNat_lt _
    have hpart := GzipFields.withExtra_extraPart flag hy16 (hlen.trans (congrArg _ xlen))
    have hxy : lo :: hi :: x <+: lo :: hi :: y := by simp [hy]
    refine ⟨g.withExtra y hy16, ?_⟩
    rw [bytes_eq, hpart]
    simp only [List.append_assoc]
    exact (List.prefix_append_right_inj _).mpr (hxy.trans (List.prefix_append ..))
  | @name g state flag comment flg crc fieldLen hcrcPos hcrc =>
    refine .inl ⟨g, ?_⟩
    have hpart : g.namePart = g.name ++ [0] := if_pos flag
    have hname : g.fixedPart ++ g.extraPart ++ g.name <+:
        g.fixedPart ++ g.extraPart ++ g.namePart := by
      rw [hpart, ← List.append_assoc]
      exact List.prefix_append ..
    exact (hname.trans (List.prefix_append ..)).trans (List.prefix_append ..)
  | @comment g state flag flg crc fieldLen hcrcPos hcrc =>
    refine .inl ⟨g, ?_⟩
    have hpart : g.commentPart = g.comment ++ [0] := if_pos flag
    have hcomment : g.fixedPart ++ g.extraPart ++ g.namePart ++ g.comment <+: g.covered := by
      rw [covered, hpart, ← List.append_assoc]
      exact List.prefix_append ..
    exact hcomment.trans (List.prefix_append ..)
  | checksum before flag => exact .inl (covered_beginsHeader _)
  | half state flag crc hcrcPos hcrc => exact .inr ⟨state, _, _, flag, rfl⟩
  | @done g state => exact .inl ⟨g, List.prefix_rfl⟩

theorem Seen.header {p : List UInt8} (hp : Seen h p) (hs : h.state = .done) :
    ∃ g : GzipFields, g.bytes = p := by
  cases hp with
  | @done g state => exact ⟨g, rfl⟩
  | extraLen before | extra before | checksum before =>
    have := before.state_eq.symm.trans hs
    cases this
  | fixed state | name state | comment state | half state =>
    have := state.symm.trans hs
    cases this

structure Reached (h : GzipHeader) (p : List UInt8) : Prop where
  fed : gzipHeaderInit.Fed p h
  seen : Seen h p
  state : h.state ≠ .done

theorem Reached.next {p : List UInt8} {h' : GzipHeader} {b : UInt8} (hr : Reached h p)
    (hf : h.feed b = (.ok, h'.state == .done, h')) : gzipHeaderInit.Fed (p ++ [b]) h' :=
  hr.fed.trans (.step hf .refl)

theorem Reached.refused {p : List UInt8} {b : UInt8} {st : Status} {h' : GzipHeader}
    (hr : Reached h p) (hf : h.feed b = (st, false, h')) (hst : st ≠ .ok) :
    ¬ BeginsHeader (p ++ [b]) := by
  rintro ⟨g, rest, hg⟩
  have ha := awaits_bytes g
  rw [← hg, List.append_assoc] at ha
  obtain ⟨h1, hfed, hrest⟩ := ha.fed
  obtain rfl := hr.fed.unique hfed
  obtain ⟨h2, hok, -⟩ := hrest.feed
  rw [hf] at hok
  exact hst (congrArg Prod.fst hok)

/-- The ends of a string. -/
inductive StringEnd (bytes : List UInt8) : HeaderEnd → Prop
  | complete {k : ℕ} (header : HeaderAt bytes k) : StringEnd bytes (.complete k)
  | pending {h : GzipHeader} (reached : Reached h bytes) : StringEnd bytes .pending
  | invalid {h h' : GzipHeader} {p rest : List UInt8} {b : UInt8} (eq : bytes = p ++ b :: rest)
      (reached : Reached h p) (fed : h.feed b = (.errInvalidData, false, h'))
      (state : h.state ≠ .hcrc) : StringEnd bytes (.failed .errInvalidData (p.length + 1))
  | checksum {h h' : GzipHeader} {g : GzipFields} {b b' : UInt8} {rest : List UInt8}
      (eq : bytes = g.covered ++ b :: b' :: rest) (flag : g.flg &&& gzHcrc ≠ 0)
      (reached : Reached h (g.covered ++ [b])) (fed : h.feed b' = (.errChecksum, false, h')) :
      StringEnd bytes (.failed .errChecksum (g.covered.length + 2))

theorem Reached.stringEnd {p : List UInt8} (hr : Reached h p) (rest : List UInt8) :
    StringEnd (p ++ rest) (h.feedAll p.length rest) := by
  induction rest generalizing h p with
  | nil =>
    rw [List.append_nil]
    exact .pending hr
  | cons b rest ih =>
    unfold GzipHeader.feedAll
    rcases hr.seen.feedsTo hr.state b with
      ⟨h', hf, hseen⟩ | ⟨h', hf, hstate⟩ | ⟨h', hf, g, x, hflag, rfl⟩
    · rw [hf]
      by_cases hdone : h'.state = .done
      · simp only [hdone, beq_self_eq_true]
        obtain ⟨g, hg⟩ := hseen.header hdone
        have hheader : HeaderAt (p ++ b :: rest) (p.length + 1) := by
          refine ⟨by simp, g, ?_⟩
          rw [hg, List.append_cons p b rest, List.take_left' (by simp)]
        exact .complete hheader
      · have hd : (h'.state == GzState.done) = false := by simpa using hdone
        simp only [hd]
        have hnext := ih (p := p ++ [b]) ⟨hr.next hf, hseen, hdone⟩
        rwa [List.append_assoc, List.length_append, List.length_singleton] at hnext
    · rw [hf]
      exact .invalid rfl hr hf hstate
    · rw [hf]
      have hend : StringEnd (g.covered ++ x :: b :: rest)
          (.failed .errChecksum (g.covered.length + 2)) :=
        .checksum rfl hflag hr hf
      simpa using hend

theorem feedAll_complete {x : List UInt8} (ha : h.Awaits x) (hx : x ≠ []) (n : ℕ)
    (rest : List UInt8) : h.feedAll n (x ++ rest) = .complete (n + x.length) := by
  induction x generalizing h n with
  | nil => exact absurd rfl hx
  | cons b x ih =>
    obtain ⟨h', hf, hnext⟩ := ha.feed
    rw [List.cons_append, GzipHeader.feedAll, hf]
    cases x with
    | nil => rfl
    | cons c x =>
      simp only [List.isEmpty_cons]
      rw [ih hnext (by simp) (n + 1), List.length_cons (a := b), Nat.add_assoc, Nat.add_comm 1]

theorem GzipFields.bytes_ne_nil (g : GzipFields) : g.bytes ≠ [] := by
  simp [bytes, covered, fixedPart]

theorem HeaderAt.feedAll {bytes : List UInt8} {k : ℕ} (hk : HeaderAt bytes k) :
    gzipHeaderInit.feedAll 0 bytes = .complete k := by
  obtain ⟨hle, g, hg⟩ := hk
  have hend := feedAll_complete (awaits_bytes g) g.bytes_ne_nil 0 (bytes.drop k)
  rw [hg, List.take_append_drop, List.length_take, Nat.min_eq_left hle, Nat.zero_add] at hend
  exact hend

/-- Past the first byte of a checksum the parser is done or has failed. -/
theorem checksum_state {h' : GzipHeader} {x : List UInt8} (hs : h.state = .hcrc)
    (hpos : h.hcrcPos = 0) (hx : h.Fed x h') (hne : h'.state ≠ .done) : h'.state = .hcrc := by
  cases hx with
  | refl => exact hs
  | @step _ h1 _ b rest hf next =>
    have h1eq : h1.state = .hcrc ∧ h1.hcrcPos = 1 := by
      simp only [GzipHeader.feed, GzipHeader.feedHcrc, hs, hpos, Nat.zero_add] at hf
      rw [if_pos (by omega), Prod.mk.injEq, Prod.mk.injEq] at hf
      rw [← hf.2.2]
      exact ⟨rfl, rfl⟩
    cases next with
    | refl => exact h1eq.1
    | @step _ h2 _ b' rest hf next =>
      have h2done : h2.state = .done := by
        simp only [GzipHeader.feed, GzipHeader.feedHcrc, h1eq.1, h1eq.2] at hf
        rw [if_neg (by omega)] at hf
        split_ifs at hf with hbad
        · cases congrArg Prod.fst hf
        · simp only [GzipHeader.arrive, Prod.mk.injEq] at hf
          rw [← hf.2.2]
      cases next with
      | refl => exact absurd h2done hne
      | @step _ _ _ c _ hf _ =>
        have := GzipHeader.feed_done h2done c
        rw [hf] at this
        cases this

/-- No checksum begins before an error of the data. -/
theorem Reached.not_checksumAt {p rest : List UInt8} {b : UInt8} {h' : GzipHeader}
    (hr : Reached h p) (hf : h.feed b = (.errInvalidData, false, h')) (hs : h.state ≠ .hcrc) (j : ℕ) :
    ¬ ChecksumAt (p ++ b :: rest) j := by
  rintro ⟨hj, g, hflag, hg⟩
  rcases Nat.lt_or_ge p.length j with hlt | hge
  · refine hr.refused hf (by simp) (g.covered_beginsHeader.mono ?_)
    rw [hg, List.append_cons p b rest, List.prefix_take_iff]
    refine ⟨List.prefix_append .., ?_⟩
    rw [List.length_append, List.length_singleton]
    omega
  · obtain ⟨h1, hcov, hb⟩ := g.fed_covered
    have hstate : h1.state = .hcrc := by
      rw [hb.state_eq, afterComment, if_pos hflag]
    have hp : p = g.covered ++ p.drop j := by
      rw [hg, List.take_append_of_le_length hge, List.take_append_drop]
    obtain ⟨h2, hcov', hrest⟩ := (hp ▸ hr.fed).split
    obtain rfl := hcov.unique hcov'
    exact hs (checksum_state hstate hb.hcrcPos hrest hr.state)

/-- Only the wrong checksum goes on past the byte that no header continues with. -/
theorem StringEnd.fails {bytes : List UInt8} {r : HeaderEnd} (hr : StringEnd bytes r)
    (hbegins : ¬ BeginsHeader bytes) (hnone : ∀ k, ¬ HeaderAt bytes k) :
    ∃ k < bytes.length, BeginsHeader (bytes.take k) ∧ ¬ BeginsHeader (bytes.take (k + 1)) ∧
      ((∀ j, ¬ ChecksumAt bytes j) ∧ r = .failed .errInvalidData (k + 1) ∨
        ∃ j, ChecksumAt bytes j ∧ j ≤ k ∧ k < j + 2 ∧
          r = if j + 2 ≤ bytes.length then .failed .errChecksum (j + 2) else .pending) := by
  cases hr with
  | complete header => exact absurd header (hnone _)
  | pending reached =>
    obtain hb | ⟨-, g, b, hflag, rfl⟩ := reached.seen.begins
    · exact absurd hb hbegins
    · refine ⟨g.covered.length, by simp, ?_, ?_, .inr ⟨g.covered.length, ⟨by simp, g, hflag, ?_⟩,
        le_rfl, by omega, ?_⟩⟩
      · rw [List.take_left]
        exact g.covered_beginsHeader
      · rwa [List.take_of_length_le (by simp)]
      · rw [List.take_left]
      · rw [if_neg (by rw [List.length_append, List.length_singleton]; omega)]
  | @invalid h h' p rest b eq reached fed state =>
    subst eq
    refine ⟨p.length, by simp, ?_, ?_, .inl ⟨reached.not_checksumAt fed state, rfl⟩⟩
    · rw [List.take_left]
      obtain hb | ⟨hs, -⟩ := reached.seen.begins
      · exact hb
      · exact absurd hs state
    · rw [List.append_cons, List.take_left' (by simp)]
      exact reached.refused fed (by simp)
  | @checksum h h' g b b' rest eq flag reached fed =>
    subst eq
    have hat : ChecksumAt (g.covered ++ b :: b' :: rest) g.covered.length :=
      ⟨by simp, g, flag, List.take_left.symm⟩
    have hlen : g.covered.length + 2 ≤ (g.covered ++ b :: b' :: rest).length := by simp
    by_cases hb : BeginsHeader (g.covered ++ [b])
    · refine ⟨g.covered.length + 1, by omega, ?_, ?_,
        .inr ⟨_, hat, by omega, by omega, by rw [if_pos hlen]⟩⟩
      · rwa [List.append_cons, List.take_left' (by simp)]
      · rw [List.append_cons, List.append_cons, List.take_left' (by simp)]
        exact reached.refused fed (by simp)
    · refine ⟨g.covered.length, by omega, ?_, ?_,
        .inr ⟨_, hat, le_rfl, by omega, by rw [if_pos hlen]⟩⟩
      · rw [List.take_left]
        exact g.covered_beginsHeader
      · rwa [List.append_cons, List.take_left' (by simp)]

/-- A string that begins a header is not refused. -/
theorem StringEnd.pending_of {bytes : List UInt8} {r : HeaderEnd} (hr : StringEnd bytes r)
    (hbegins : BeginsHeader bytes) (hnone : ∀ k, ¬ HeaderAt bytes k) : r = .pending := by
  cases hr with
  | complete header => exact absurd header (hnone _)
  | pending reached => rfl
  | @invalid h h' p rest b eq reached fed state =>
    refine absurd (hbegins.mono ?_) (reached.refused fed (by simp))
    rw [eq, List.append_cons p b rest]
    exact List.prefix_append ..
  | @checksum h h' g b b' rest eq flag reached fed =>
    refine absurd (hbegins.mono ?_) (reached.refused fed (by simp))
    rw [eq, List.append_cons g.covered b (b' :: rest), List.append_cons _ b' rest]
    exact List.prefix_append ..

theorem gzipWriteHeader_headerAt (rest : List UInt8) :
    HeaderAt (gzipWriteHeader ++ rest) gzipHeaderLen := by
  refine ⟨by simp [gzipHeaderLen, gzipWriteHeader], plainFields, ?_⟩
  rw [plainFields_bytes, List.take_left' (by rfl)]

/-- The parser accepts exactly the headers of RFC 1952, each at its exact length. -/
theorem gzipHeader_exact (bytes rest : List UInt8) :
    ParsesHeader bytes (gzipHeaderInit.feedAll 0 bytes) ∧
      gzipHeaderInit.feedAll 0 (gzipWriteHeader ++ rest) = .complete gzipHeaderLen := by
  have hend : StringEnd bytes (gzipHeaderInit.feedAll 0 bytes) :=
    Reached.stringEnd ⟨.refl, seen_init, by decide⟩ bytes
  refine ⟨⟨fun k => ⟨fun hk => ?_, HeaderAt.feedAll⟩, hend.pending_of, hend.fails⟩,
    (gzipWriteHeader_headerAt rest).feedAll⟩
  rw [hk] at hend
  cases hend with
  | complete header => exact header

end Zukomp
