import Zukomp.Deflate.Header

/-! # The array accesses of the gzip parser

A caller may go on feeding the parser after an error. Everywhere but at the header checksum the
parser stays within its arrays then: behind a checksum that does not match, it stores the next
byte past the end of `hcrc`.
-/

namespace Zukomp

/-- One use of an array of `zu_int_gzip_header`. -/
inductive GzAccess where
  | storeFixed (i : ℕ)
  | storeHcrc (i : ℕ)
  | readHcrc (i : ℕ)
  deriving DecidableEq

/-- `fixed` has ten elements and `hcrc` two. -/
def GzAccess.InBounds : GzAccess → Prop
  | .storeFixed i => i < gzipHeaderLen
  | .storeHcrc i => i < 2
  | .readHcrc i => i < 2

instance (a : GzAccess) : Decidable a.InBounds := by
  cases a <;> exact inferInstanceAs (Decidable (_ < _))

namespace GzipHeader

/-- The array accesses of one call, in order. -/
def accesses (h : GzipHeader) : List GzAccess :=
  match h.state with
  | .fixed => [.storeFixed h.fixedPos]
  | .hcrc => .storeHcrc h.hcrcPos :: if h.hcrcPos + 1 < 2 then [] else [.readHcrc 0, .readHcrc 1]
  | _ => []

/-- The accesses of calls in a row, whatever each of them answers. -/
def runAccesses (h : GzipHeader) : List UInt8 → List GzAccess
  | [] => []
  | b :: rest => h.accesses ++ (h.feed b).2.2.runAccesses rest

/-- The parser stays within its arrays while it is fed `bytes`. -/
def Bounded (h : GzipHeader) (bytes : List UInt8) : Prop := ∀ a ∈ h.runAccesses bytes, a.InBounds

instance (h : GzipHeader) (bytes : List UInt8) : Decidable (h.Bounded bytes) :=
  inferInstanceAs (Decidable (∀ a ∈ _, _))

theorem bounded_nil (h : GzipHeader) : h.Bounded [] := by simp [Bounded, runAccesses]

theorem bounded_cons {h : GzipHeader} {b : UInt8} {rest : List UInt8} :
    h.Bounded (b :: rest) ↔ (∀ a ∈ h.accesses, a.InBounds) ∧ (h.feed b).2.2.Bounded rest := by
  simp only [Bounded, runAccesses, List.mem_append, or_imp, forall_and]

end GzipHeader

/-! ## Where the checksum stands -/

/-- The bytes before the header checksum and those from it on, where a header has one. -/
abbrev HcrcSplit := Option (List UInt8 × List UInt8)

namespace HcrcSplit

def cons (b : UInt8) (x : HcrcSplit) : HcrcSplit := x.map fun s => (b :: s.1, s.2)

/-- `n` bytes, and then what follows them. -/
def skip (next : List UInt8 → HcrcSplit) : ℕ → List UInt8 → HcrcSplit
  | 0, bytes => next bytes
  | _ + 1, [] => none
  | n + 1, b :: rest => cons b (skip next n rest)

/-- The bytes up to a NUL, and then what follows it. -/
def field (next : List UInt8 → HcrcSplit) : List UInt8 → HcrcSplit
  | [] => none
  | b :: rest => cons b (if b = 0 then next rest else field next rest)

/-- A little-endian length, that many bytes, and then what follows them. -/
def extra (next : List UInt8 → HcrcSplit) : List UInt8 → HcrcSplit
  | lo :: hi :: rest => cons lo (cons hi (skip next (lo.toNat + 256 * hi.toNat) rest))
  | _ => none

variable (flg : UInt8)

def afterComment (bytes : List UInt8) : HcrcSplit :=
  if flg &&& gzHcrc ≠ 0 then some ([], bytes) else none

def afterName (bytes : List UInt8) : HcrcSplit :=
  if flg &&& gzComment ≠ 0 then field (afterComment flg) bytes else afterComment flg bytes

def afterExtra (bytes : List UInt8) : HcrcSplit :=
  if flg &&& gzName ≠ 0 then field (afterName flg) bytes else afterName flg bytes

def afterFixed (bytes : List UInt8) : HcrcSplit :=
  if flg &&& gzExtra ≠ 0 then extra (afterExtra flg) bytes else afterExtra flg bytes

end HcrcSplit

/-- The flags a header is read by: none when a reserved one is set. -/
def flagsRead (flg : UInt8) : UInt8 := if flg &&& gzReserved ≠ 0 then 0 else flg

/-- Where the checksum of a header stands, its other bytes valid or not. -/
def hcrcSplit (bytes : List UInt8) : HcrcSplit :=
  .skip (.afterFixed (flagsRead (bytes.getD 3 0))) gzipHeaderLen bytes

/-- A checksum that starts at `rest` and is not the last thing there matches `crc`. -/
def Matches (crc : UInt32) (rest : List UInt8) : Prop :=
  2 < rest.length → (rest.getD 0 0).toUInt16 ||| (rest.getD 1 0).toUInt16 <<< 8 =
    (crc &&& 0xFFFF).toUInt16

def Agrees (crc : UInt32) (x : HcrcSplit) : Prop :=
  ∀ s, x = some s → Matches (mzCrc32 crc s.1) s.2

/-- No byte follows a header checksum that does not match the bytes before it. -/
def StopsAtMismatch (bytes : List UInt8) : Prop := Agrees 0 (hcrcSplit bytes)

theorem agrees_none (crc : UInt32) : Agrees crc none := nofun

theorem agrees_cons {crc : UInt32} {b : UInt8} {x : HcrcSplit} :
    Agrees crc (.cons b x) ↔ Agrees (mzCrc32 crc [b]) x := by
  cases x with
  | none => exact ⟨nofun, nofun⟩
  | some s => simp [Agrees, HcrcSplit.cons, mzCrc32_cons]

/-! ## The parser, stage by stage -/

namespace GzipHeader

/-- A parser that has not reached the checksum of a header with these flags. -/
structure Before (flg : UInt8) (h : GzipHeader) : Prop where
  flg_eq : h.flg = flg
  hcrcPos : h.hcrcPos = 0
  hcrc : h.hcrc.length = 2

/-- From `state` on, the parser stays within its arrays as `next` says. -/
def Tracks (flg : UInt8) (state : GzState) (next : List UInt8 → HcrcSplit) : Prop :=
  ∀ h : GzipHeader, h.Before flg → h.state = state →
    ∀ bytes, h.Bounded bytes ↔ Agrees h.crc (next bytes)

variable {flg : UInt8} {h : GzipHeader}

/-- Behind its last byte the parser uses no array. -/
theorem bounded_done (hs : h.state = .done) (bytes : List UInt8) : h.Bounded bytes := by
  induction bytes generalizing h with
  | nil => exact h.bounded_nil
  | cons b rest ih =>
    refine bounded_cons.mpr ⟨by simp [accesses, hs], ih ?_⟩
    rw [feed, hs]
    exact hs

/-- With two bytes of the checksum read and the state unchanged, the next store is outside. -/
theorem bounded_past (hs : h.state = .hcrc) (hpos : h.hcrcPos = 2) (bytes : List UInt8) :
    h.Bounded bytes ↔ bytes = [] := by
  cases bytes with
  | nil => exact ⟨fun _ => rfl, fun _ => h.bounded_nil⟩
  | cons b rest =>
    refine ⟨fun hb => ?_, nofun⟩
    have hstore := (bounded_cons.mp hb).1 (.storeHcrc 2) (by simp [accesses, hs, hpos])
    exact absurd hstore (lt_irrefl 2)

/-- The checksum itself: two stores, and a third where it does not match. -/
theorem tracks_hcrc : Tracks flg .hcrc fun bytes => some ([], bytes) := by
  intro h hb hs bytes
  have hsplit : Agrees h.crc (some ([], bytes)) ↔ Matches h.crc bytes := by simp [Agrees]
  rw [hsplit]
  have hstore (hpos : h.hcrcPos < 2) : ∀ a ∈ h.accesses, a.InBounds := by
    intro a ha
    simp only [accesses, hs, List.mem_cons] at ha
    rcases ha with rfl | ha
    · exact hpos
    · split_ifs at ha
      · cases ha
      · simp only [List.mem_cons, List.not_mem_nil, or_false] at ha
        rcases ha with rfl | rfl <;> decide
  obtain ⟨x, y, hxy⟩ := List.length_eq_two.mp hb.hcrc
  cases bytes with
  | nil => exact ⟨fun _ hlen => absurd hlen (by simp), fun _ => h.bounded_nil⟩
  | cons lo rest =>
    have hfirst : (h.feed lo).2.2 = { h with hcrc := [lo, y], hcrcPos := 1 } := by
      simp [feed, hs, feedHcrc, hb.hcrcPos, hxy]
    rw [bounded_cons, hfirst]
    cases rest with
    | nil =>
      exact ⟨fun _ hlen => absurd hlen (by simp),
        fun _ => ⟨hstore (by simp [hb.hcrcPos]), bounded_nil _⟩⟩
    | cons hi rest =>
      have hsecond : (GzipHeader.feed { h with hcrc := [lo, y], hcrcPos := 1 } hi).2.2 =
          { h with
            hcrc := [lo, hi], hcrcPos := 2
            state := if lo.toUInt16 ||| hi.toUInt16 <<< 8 = (h.crc &&& 0xFFFF).toUInt16 then .done
              else .hcrc } := by
        simp only [feed, hs, feedHcrc, List.set_cons_succ, List.set_cons_zero,
          List.getD_cons_zero, List.getD_cons_succ]
        rw [if_neg (by decide)]
        by_cases heq : lo.toUInt16 ||| hi.toUInt16 <<< 8 = (h.crc &&& 0xFFFF).toUInt16
        · rw [if_neg (not_not.mpr heq), if_pos heq]
          rfl
        · rw [if_pos heq, if_neg heq]
      rw [bounded_cons, hsecond]
      have hmid : ∀ a ∈ GzipHeader.accesses { h with hcrc := [lo, y], hcrcPos := 1 },
          a.InBounds := by
        simp [accesses, hs, GzAccess.InBounds]
      have hmatch : Matches h.crc (lo :: hi :: rest) ↔
          (rest ≠ [] → lo.toUInt16 ||| hi.toUInt16 <<< 8 = (h.crc &&& 0xFFFF).toUInt16) := by
        simp [Matches, List.length_pos_iff]
      rw [hmatch]
      by_cases heq : lo.toUInt16 ||| hi.toUInt16 <<< 8 = (h.crc &&& 0xFFFF).toUInt16
      · exact ⟨fun _ _ => heq, fun _ =>
          ⟨hstore (by simp [hb.hcrcPos]), hmid, bounded_done (if_pos heq) rest⟩⟩
      · rw [bounded_past (if_neg heq) rfl]
        refine ⟨fun hrest hne => absurd hrest.2.2 hne,
          fun hm => ⟨hstore (by simp [hb.hcrcPos]), hmid, ?_⟩⟩
        by_contra hne
        exact heq (hm hne)

theorem tracks_afterComment : Tracks flg (afterComment flg) (.afterComment flg) := by
  intro h hb hs bytes
  unfold afterComment at hs
  unfold HcrcSplit.afterComment
  by_cases hflag : flg &&& gzHcrc ≠ 0
  · rw [if_pos hflag] at hs ⊢
    exact tracks_hcrc h hb hs bytes
  · rw [if_neg hflag] at hs ⊢
    exact ⟨fun _ => agrees_none h.crc, fun _ => bounded_done hs bytes⟩

theorem tracks_field {state : GzState} {after : UInt8 → GzState} {next : List UInt8 → HcrcSplit}
    (hacc : state ≠ .fixed ∧ state ≠ .hcrc)
    (hfeed : ∀ (h : GzipHeader) (b : UInt8), h.state = state →
      h.feed b = (h.count b).feedField b after)
    (hnext : Tracks flg (after flg) next) : Tracks flg state (.field next) := by
  intro h hb hs bytes
  induction bytes generalizing h with
  | nil => exact ⟨fun _ => agrees_none h.crc, fun _ => h.bounded_nil⟩
  | cons b rest ih =>
    have hnone : ∀ a ∈ h.accesses, a.InBounds := by
      unfold accesses
      cases hstate : h.state <;> simp_all
    rw [HcrcSplit.field, agrees_cons, bounded_cons, and_iff_right hnone, hfeed h b hs]
    unfold feedField
    by_cases hzero : b = 0
    · rw [if_neg (not_not.mpr hzero), if_pos hzero]
      exact hnext { h.count b with fieldLen := 0, state := after h.flg }
        ⟨hb.flg_eq, hb.hcrcPos, hb.hcrc⟩ (congrArg after hb.flg_eq) rest
    · rw [if_pos hzero, if_neg hzero]
      dsimp only
      split_ifs
      · exact ih _ ⟨hb.flg_eq, hb.hcrcPos, hb.hcrc⟩ hs
      · exact ih _ ⟨hb.flg_eq, hb.hcrcPos, hb.hcrc⟩ hs

theorem tracks_afterName : Tracks flg (afterName flg) (.afterName flg) := by
  intro h hb hs bytes
  unfold afterName at hs
  unfold HcrcSplit.afterName
  by_cases hflag : flg &&& gzComment ≠ 0
  · rw [if_pos hflag] at hs ⊢
    exact tracks_field (by simp) (fun h b hs => by rw [feed, hs]) tracks_afterComment h hb hs bytes
  · rw [if_neg hflag] at hs ⊢
    exact tracks_afterComment h hb hs bytes

theorem tracks_afterExtra : Tracks flg (afterExtra flg) (.afterExtra flg) := by
  intro h hb hs bytes
  unfold afterExtra at hs
  unfold HcrcSplit.afterExtra
  by_cases hflag : flg &&& gzName ≠ 0
  · rw [if_pos hflag] at hs ⊢
    exact tracks_field (by simp) (fun h b hs => by rw [feed, hs]) tracks_afterName h hb hs bytes
  · rw [if_neg hflag] at hs ⊢
    exact tracks_afterName h hb hs bytes

theorem tracks_extra {n : ℕ} (hb : h.Before flg) (hs : h.state = .extra)
    (hleft : h.xpos + (n + 1) = h.xlen.toNat) (bytes : List UInt8) :
    h.Bounded bytes ↔ Agrees h.crc (.skip (.afterExtra flg) (n + 1) bytes) := by
  induction bytes generalizing h n with
  | nil => exact ⟨fun _ => agrees_none h.crc, fun _ => h.bounded_nil⟩
  | cons b rest ih =>
    have hnone : ∀ a ∈ h.accesses, a.InBounds := by simp [accesses, hs]
    rw [HcrcSplit.skip, agrees_cons, bounded_cons, and_iff_right hnone]
    simp only [feed, hs, feedExtra]
    cases n with
    | zero =>
      have hlast : ¬ h.xpos + 1 < h.xlen.toNat := by omega
      rw [if_neg (show ¬ (h.count b).xpos + 1 < (h.count b).xlen.toNat from hlast)]
      exact tracks_afterExtra { h.count b with xpos := h.xpos + 1, state := afterExtra h.flg }
        ⟨hb.flg_eq, hb.hcrcPos, hb.hcrc⟩ (congrArg afterExtra hb.flg_eq) rest
    | succ n =>
      have hmore : h.xpos + 1 < h.xlen.toNat := by omega
      rw [if_pos (show (h.count b).xpos + 1 < (h.count b).xlen.toNat from hmore)]
      exact ih (h := { h.count b with xpos := h.xpos + 1 }) ⟨hb.flg_eq, hb.hcrcPos, hb.hcrc⟩ hs
        (show h.xpos + 1 + (n + 1) = h.xlen.toNat by omega)

/-- The length of the extra field, and the field. -/
theorem tracks_extraLen (hb : h.Before flg) (hs : h.state = .extraLen)
    (hstart : h.xlenPos = 0 ∧ h.xlen = 0 ∧ h.xpos = 0) (bytes : List UInt8) :
    h.Bounded bytes ↔ Agrees h.crc (.extra (.afterExtra flg) bytes) := by
  obtain ⟨hpos, hlen, hxpos⟩ := hstart
  have hnone : ∀ a ∈ h.accesses, a.InBounds := by simp [accesses, hs]
  match bytes with
  | [] => exact ⟨fun _ => agrees_none h.crc, fun _ => h.bounded_nil⟩
  | [lo] =>
    refine ⟨fun _ => agrees_none h.crc, fun _ => ?_⟩
    exact bounded_cons.mpr ⟨hnone, bounded_nil _⟩
  | lo :: hi :: rest =>
    have hfirst : (h.feed lo).2.2 = { h.count lo with xlen := lo.toUInt16, xlenPos := 1 } := by
      simp [feed, hs, feedExtraLen, hpos, hlen, count]
    have hxlen := (xlen_bytes lo hi).1
    set n := lo.toUInt16 ||| hi.toUInt16 <<< 8 with hn
    have hsecond : (GzipHeader.feed { h.count lo with xlen := lo.toUInt16, xlenPos := 1 } hi).2.2 =
        { (h.count lo).count hi with
          xlen := n, xlenPos := 2, state := if 0 < n then .extra else afterExtra flg } := by
      simp [feed, hs, feedExtraLen, count, arrive, hn, hb.flg_eq]
    rw [HcrcSplit.extra, agrees_cons, agrees_cons, bounded_cons, and_iff_right hnone, hfirst,
      bounded_cons, and_iff_right (by simp [accesses, hs, count]), hsecond]
    have hbefore (state : GzState) : Before flg { (h.count lo).count hi with
        xlen := n, xlenPos := 2, state := state } := ⟨hb.flg_eq, hb.hcrcPos, hb.hcrc⟩
    rw [← hxlen]
    by_cases hmore : 0 < n
    · rw [if_pos hmore]
      have hpos : 0 < n.toNat := UInt16.lt_iff_toNat_lt.mp hmore
      obtain ⟨k, hk⟩ := Nat.exists_eq_add_of_le' hpos
      rw [hk]
      refine tracks_extra (hbefore _) rfl ?_ rest
      change h.xpos + (k + 1) = n.toNat
      rw [hxpos, hk]
      omega
    · rw [if_neg hmore]
      have hzero : n.toNat = 0 := by
        have := mt UInt16.lt_iff_toNat_lt.mpr hmore
        simpa using this
      rw [hzero]
      exact tracks_afterExtra _ (hbefore _) rfl rest

theorem tracks_afterFixed (hb : h.Before flg) (hs : h.state = afterFixed flg)
    (hstart : h.xlenPos = 0 ∧ h.xlen = 0 ∧ h.xpos = 0) (bytes : List UInt8) :
    h.Bounded bytes ↔ Agrees h.crc (.afterFixed flg bytes) := by
  unfold afterFixed at hs
  unfold HcrcSplit.afterFixed
  by_cases hflag : flg &&& gzExtra ≠ 0
  · rw [if_pos hflag] at hs ⊢
    exact tracks_extraLen hb hs hstart bytes
  · rw [if_neg hflag] at hs ⊢
    exact tracks_afterExtra h hb hs bytes

/-- A byte of the fixed part is stored and counted, whatever the parser answers. -/
theorem feed_fixed_any (hs : h.state = .fixed) (b : UInt8) :
    (h.feed b).2.2 = { h.count b with
      fixed := h.fixed.set h.fixedPos b, fixedPos := h.fixedPos + 1
      flg := if h.fixedPos + 1 = 4 ∧ b &&& gzReserved = 0 then b else h.flg
      state := if h.fixedPos + 1 < gzipHeaderLen then .fixed else afterFixed h.flg } := by
  have hten (n : ℕ) (hn : h.fixedPos + 1 = n) (hlt : n < gzipHeaderLen) :
      h.fixedPos + 1 < gzipHeaderLen := hn ▸ hlt
  have hnot (n : ℕ) (hn : h.fixedPos + 1 = n) (hne : n ≠ 4) :
      ¬ (h.fixedPos + 1 = 4 ∧ b &&& gzReserved = 0) := fun hf => hne (hn.symm.trans hf.1)
  simp only [feed, hs, feedFixed, count]
  by_cases h1 : h.fixedPos + 1 = 1 ∧ b ≠ 0x1F
  · rw [if_pos h1, if_neg (hnot 1 h1.1 (by decide)), if_pos (hten 1 h1.1 (by decide))]
  rw [if_neg h1]
  by_cases h2 : h.fixedPos + 1 = 2 ∧ b ≠ 0x8B
  · rw [if_pos h2, if_neg (hnot 2 h2.1 (by decide)), if_pos (hten 2 h2.1 (by decide))]
  rw [if_neg h2]
  by_cases h3 : h.fixedPos + 1 = 3 ∧ b ≠ 8
  · rw [if_pos h3, if_neg (hnot 3 h3.1 (by decide)), if_pos (hten 3 h3.1 (by decide))]
  rw [if_neg h3]
  by_cases h4 : h.fixedPos + 1 = 4 ∧ b &&& gzReserved ≠ 0
  · rw [if_pos h4, if_neg (show ¬ (h.fixedPos + 1 = 4 ∧ b &&& gzReserved = 0) from fun hf => h4.2 hf.2),
      if_pos (hten 4 h4.1 (by decide))]
  rw [if_neg h4]
  by_cases hfour : h.fixedPos + 1 = 4
  · have hzero : b &&& gzReserved = 0 := not_not.mp fun hne => h4 ⟨hfour, hne⟩
    have hread : h.fixedPos + 1 = 4 ∧ b &&& gzReserved = 0 := ⟨hfour, hzero⟩
    simp only [hfour, hread, if_true, and_self, show 4 < gzipHeaderLen by decide]
  · rw [if_neg hfour,
      if_neg (show ¬ (h.fixedPos + 1 = 4 ∧ b &&& gzReserved = 0) from fun hf => hfour hf.1)]
    dsimp only
    by_cases hlt : h.fixedPos + 1 < gzipHeaderLen
    · rw [if_pos hlt, if_pos hlt]
    · rw [if_neg hlt, if_neg hlt]
      rfl

/-- The fixed part, some of it read: whatever its bytes, the parser leaves it after ten. -/
structure InFixed (all : List UInt8) (n : ℕ) (h : GzipHeader) : Prop where
  state : h.state = .fixed
  fixedPos : h.fixedPos + (n + 1) = gzipHeaderLen
  start : h.xlenPos = 0 ∧ h.xlen = 0 ∧ h.xpos = 0
  hcrcPos : h.hcrcPos = 0
  hcrc : h.hcrc.length = 2
  flg : h.flg = if 4 ≤ h.fixedPos then flagsRead (all.getD 3 0) else 0

theorem tracks_fixed {all : List UInt8} {n : ℕ} (hx : h.InFixed all n) {rest : List UInt8}
    (hrest : all.drop h.fixedPos = rest) :
    h.Bounded rest ↔ Agrees h.crc
      (.skip (.afterFixed (flagsRead (all.getD 3 0))) (n + 1) rest) := by
  induction rest generalizing h n with
  | nil => exact ⟨fun _ => agrees_none h.crc, fun _ => h.bounded_nil⟩
  | cons b rest ih =>
    have hpos := hx.fixedPos
    have hin : ∀ a ∈ h.accesses, a.InBounds := by
      simp only [accesses, hx.state, List.mem_singleton, forall_eq, GzAccess.InBounds]
      omega
    have hnext : all.drop (h.fixedPos + 1) = rest := by
      rw [← List.drop_drop, hrest]
      rfl
    have hbyte (hfour : h.fixedPos + 1 = 4) : all.getD 3 0 = b := by
      rw [show h.fixedPos = 3 by omega] at hrest
      have hget := congrArg (·[0]?) hrest
      rw [List.getElem?_drop] at hget
      rw [List.getD_eq_getElem?_getD, show all[3]? = some b from hget]
      rfl
    have hflg : (if h.fixedPos + 1 = 4 ∧ b &&& gzReserved = 0 then b else h.flg) =
        if 4 ≤ h.fixedPos + 1 then flagsRead (all.getD 3 0) else 0 := by
      rw [hx.flg]
      by_cases hfour : h.fixedPos + 1 = 4
      · rw [hbyte hfour, if_pos (show 4 ≤ h.fixedPos + 1 by omega),
          if_neg (show ¬ 4 ≤ h.fixedPos by omega), flagsRead]
        by_cases hzero : b &&& gzReserved = 0
        · rw [if_pos ⟨hfour, hzero⟩, if_neg (not_not.mpr hzero)]
        · rw [if_neg (fun h => hzero h.2), if_pos hzero]
      · rw [if_neg (fun h => hfour h.1)]
        by_cases hlate : 4 ≤ h.fixedPos
        · rw [if_pos hlate, if_pos (by omega)]
        · rw [if_neg hlate, if_neg (by omega)]
    rw [HcrcSplit.skip, agrees_cons, bounded_cons, and_iff_right hin, feed_fixed_any hx.state]
    cases n with
    | zero =>
      have hlen : h.fixedPos + 1 = 10 := hpos
      have hlast : h.flg = flagsRead (all.getD 3 0) := by
        rw [hx.flg, if_pos (by omega)]
      rw [if_neg (show ¬ h.fixedPos + 1 < gzipHeaderLen by omega), hflg,
        if_pos (show 4 ≤ h.fixedPos + 1 by omega), hlast]
      set next : GzipHeader := { h.count b with
        state := afterFixed (flagsRead (all.getD 3 0)), fixed := h.fixed.set h.fixedPos b
        fixedPos := h.fixedPos + 1, flg := flagsRead (all.getD 3 0) } with hnext
      exact tracks_afterFixed (h := next) ⟨rfl, hx.hcrcPos, hx.hcrc⟩ rfl hx.start rest
    | succ n =>
      rw [if_pos (show h.fixedPos + 1 < gzipHeaderLen by omega)]
      refine ih ⟨rfl, ?_, hx.start, hx.hcrcPos, hx.hcrc, hflg⟩ hnext
      change h.fixedPos + 1 + (n + 1) = gzipHeaderLen
      omega

end GzipHeader

/-- Whatever the parser is fed after its init, errors or not, each of its array accesses is within
the array exactly when no byte follows a header checksum that does not match. -/
theorem gzipHeader_bounded (bytes : List UInt8) :
    (∀ a ∈ gzipHeaderInit.runAccesses bytes, a.InBounds) ↔ StopsAtMismatch bytes := by
  have hinit : gzipHeaderInit.InFixed bytes 9 :=
    ⟨rfl, rfl, ⟨rfl, rfl, rfl⟩, rfl, rfl, rfl⟩
  exact GzipHeader.tracks_fixed hinit rfl

/-- A header with a checksum of zero, and one byte more. -/
def pastChecksum : List UInt8 := [0x1F, 0x8B, 8, 2, 0, 0, 0, 0, 0, 255, 0, 0, 0]

/-- The thirteenth byte is stored past the end of `hcrc`. -/
theorem gzipHeader_overruns :
    ¬ ∀ bytes : List UInt8, ∀ a ∈ gzipHeaderInit.runAccesses bytes, a.InBounds := by
  intro hall
  have hpast := hall pastChecksum (.storeHcrc 2) (by decide +kernel)
  exact absurd hpast (lt_irrefl 2)

end Zukomp
