import Zukomp.Core.Identity
import Zukomp.Core.Registry
import Zukomp.Core.Sizes

/-! # Detection, zu_sniff

Fixed magic is tested first and the longest wins; sniffers are asked only where no magic
matches. Over any table that registrations have built, the answer is the codec of the first of
the longest matches.
-/

namespace Zukomp

/-- `memcmp` of the magic with the bytes at its offset, all of them within the first `n`. -/
def Registrant.magicMatches (v : Registrant) (buf : List UInt8) (n : ℕ) : Bool :=
  match v.magic with
  | none => false
  | some magic =>
    if magic = [] then false
    else match sizeAdd v.magicOffset.toNat magic.length with
      | .error _ => false
      | .ok bytesEnd =>
        if n < bytesEnd then false
        else (buf.drop v.magicOffset.toNat).take magic.length = magic

def Registrant.magicLen (v : Registrant) : ℕ := (v.magic.getD []).length

def Registrant.accepts (v : Registrant) (buf : List UInt8) (n : ℕ) : Bool :=
  match v.sniff with
  | none => false
  | some sniff => sniff (buf.take n)

namespace Registry

/-- A turn of the first loop of `zu_sniff`, over `best_len` and `*out`. -/
def sniffStep (buf : List UInt8) (n : ℕ) (best : ℕ × CodecId) (v : Registrant) : ℕ × CodecId :=
  if v.magicMatches buf n = false then best
  else if best.1 < v.magicLen then (v.magicLen, v.codec)
  else best

/-- `zu_sniff` over `n` bytes at `buf`, which may have others behind them. -/
def zuSniff (r : Registry) (buf : List UInt8) (n : ℕ) : Status × CodecId :=
  let out := (r.entries.foldl (sniffStep buf n) (0, codecNone)).2
  if out ≠ codecNone then (.ok, out)
  else match r.entries.find? fun v => v.accepts buf n with
    | some v => (.ok, v.codec)
    | none => (.errUnsupported, codecNone)

end Registry

/-! ## The longest magic -/

/-- The magic of `v` stands at its offset in `bytes`. -/
structure Registrant.Matches (v : Registrant) (bytes : List UInt8) : Prop where
  nonempty : 0 < v.magicLen
  within : v.magicOffset.toNat + v.magicLen ≤ bytes.length
  same : v.magic = some ((bytes.drop v.magicOffset.toNat).take v.magicLen)

/-- The first of the entries that match with the longest magic. -/
structure LongestMatch (entries : List Registrant) (bytes : List UInt8) (v : Registrant) : Prop where
  matches_ : v.Matches bytes
  first : ∃ before after, entries = before ++ v :: after ∧
    (∀ e ∈ before, e.Matches bytes → e.magicLen < v.magicLen) ∧
    ∀ e ∈ after, e.Matches bytes → e.magicLen ≤ v.magicLen

variable {v w : Registrant} {bytes extra : List UInt8} {entries : List Registrant}

/-- The comparison reads none of the bytes behind. -/
theorem Registrant.magicMatches_iff (v : Registrant) (hword : bytes.length < wordSize)
    (extra : List UInt8) :
    v.magicMatches (bytes ++ extra) bytes.length = true ↔ v.Matches bytes := by
  unfold magicMatches
  cases hmagic : v.magic with
  | none => exact ⟨by simp, fun h => by have := h.same; simp [hmagic] at this⟩
  | some magic =>
    have hlen : v.magicLen = magic.length := by simp [magicLen, hmagic]
    dsimp only
    by_cases hnil : magic = []
    · rw [if_pos hnil]
      exact ⟨by simp, fun h => by have := h.nonempty; simp [hlen, hnil] at this⟩
    rw [if_neg hnil]
    by_cases hle : v.magicOffset.toNat + magic.length ≤ bytes.length
    · rw [sizeAdd_ok (by omega)]
      dsimp only
      rw [if_neg (by omega), List.drop_append_of_le_length (by omega),
        List.take_append_of_le_length (by rw [List.length_drop]; omega), decide_eq_true_eq]
      constructor
      · intro heq
        exact ⟨hlen ▸ List.length_pos_iff.mpr hnil, by rw [hlen]; exact hle, by
          rw [hmagic, hlen, heq]⟩
      · intro h
        have hsame := h.same
        rw [hmagic, hlen] at hsame
        exact (Option.some.inj hsame).symm
    · refine ⟨fun h => ?_, fun h => absurd (hlen ▸ h.within) hle⟩
      rcases hadd : sizeAdd v.magicOffset.toNat magic.length with _ | bytesEnd
      · simp [hadd] at h
      · have hend : bytesEnd = v.magicOffset.toNat + magic.length := by
          unfold sizeAdd at hadd
          split_ifs at hadd
          exact (Except.ok.inj hadd).symm
        simp only [hadd] at h
        rw [if_pos (by omega)] at h
        cases h

/-- The loop keeps the first of the longest matches so far. -/
theorem sniffStep_foldl (hword : bytes.length < wordSize) (entries : List Registrant)
    (extra : List UInt8) :
    let best := entries.foldl (Registry.sniffStep (bytes ++ extra) bytes.length) (0, codecNone)
    (∀ e ∈ entries, ¬ e.Matches bytes) ∧ best = (0, codecNone) ∨
      ∃ v, LongestMatch entries bytes v ∧ best = (v.magicLen, v.codec) := by
  induction entries using List.reverseRecOn with
  | nil => exact .inl ⟨by simp, rfl⟩
  | append_singleton entries w ih =>
    intro best
    have hbest : best = Registry.sniffStep (bytes ++ extra) bytes.length
        (entries.foldl (Registry.sniffStep (bytes ++ extra) bytes.length) (0, codecNone)) w :=
      List.foldl_concat ..
    have hiff := w.magicMatches_iff hword extra
    by_cases hw : w.Matches bytes
    · rw [Registry.sniffStep, if_neg (by simp [hiff.mpr hw])] at hbest
      rcases ih with ⟨hnone, hzero⟩ | ⟨v, hv, hlongest⟩
      · rw [hzero, if_pos hw.nonempty] at hbest
        exact .inr ⟨w, ⟨hw, entries, [], rfl, fun e he hm => absurd hm (hnone e he), by simp⟩,
          hbest⟩
      · rw [hlongest] at hbest
        obtain ⟨before, after, rfl, hbefore, hafter⟩ := hv.first
        by_cases hlt : v.magicLen < w.magicLen
        · rw [if_pos hlt] at hbest
          refine .inr ⟨w, ⟨hw, before ++ v :: after, [], rfl, fun e he hm => ?_, by simp⟩, hbest⟩
          rcases List.mem_append.mp he with he | he
          · exact (hbefore e he hm).trans hlt
          · rcases List.mem_cons.mp he with rfl | he
            · exact hlt
            · exact (hafter e he hm).trans_lt hlt
        · rw [if_neg hlt] at hbest
          refine .inr ⟨v, ⟨hv.matches_, before, after ++ [w], by simp, hbefore, fun e he hm => ?_⟩,
            hbest⟩
          rcases List.mem_append.mp he with he | he
          · exact hafter e he hm
          · rw [List.mem_singleton.mp he]
            omega
    · have hfalse : w.magicMatches (bytes ++ extra) bytes.length = false := by
        rw [← Bool.not_eq_true, hiff]
        exact hw
      rw [Registry.sniffStep, if_pos hfalse] at hbest
      rcases ih with ⟨hnone, hzero⟩ | ⟨v, hv, hlongest⟩
      · refine .inl ⟨fun e he => ?_, hbest.trans hzero⟩
        rcases List.mem_append.mp he with he | he
        · exact hnone e he
        · rwa [List.mem_singleton.mp he]
      · obtain ⟨before, after, rfl, hbefore, hafter⟩ := hv.first
        refine .inr ⟨v, ⟨hv.matches_, before, after ++ [w], by simp, hbefore, fun e he hm => ?_⟩,
          hbest.trans hlongest⟩
        rcases List.mem_append.mp he with he | he
        · exact hafter e he hm
        · exact absurd (List.mem_singleton.mp he ▸ hm) hw

theorem LongestMatch.mem (h : LongestMatch entries bytes v) : v ∈ entries := by
  obtain ⟨before, after, heq, -⟩ := h.first
  simp [heq]

theorem LongestMatch.le (h : LongestMatch entries bytes v) (hw : w ∈ entries)
    (hm : w.Matches bytes) : w.magicLen ≤ v.magicLen := by
  obtain ⟨before, after, heq, hbefore, hafter⟩ := h.first
  rw [heq] at hw
  rcases List.mem_append.mp hw with hw | hw
  · exact (hbefore w hw hm).le
  · rcases List.mem_cons.mp hw with rfl | hw
    · exact le_rfl
    · exact hafter w hw hm

/-- There is one. -/
theorem LongestMatch.unique (h : LongestMatch entries bytes v)
    (h' : LongestMatch entries bytes w) : v = w := by
  obtain ⟨before, after, heq, hbefore, -⟩ := h.first
  obtain ⟨before', after', heq', hbefore', -⟩ := h'.first
  rw [heq] at heq'
  rcases List.append_eq_append_iff.mp heq' with ⟨rest, hb, hr⟩ | ⟨rest, hb, hr⟩
  · cases rest with
    | nil => exact (List.cons.inj hr).1
    | cons e rest =>
      obtain ⟨rfl, -⟩ := List.cons.inj hr
      have hlt := hbefore' v (by simp [hb]) h.matches_
      have hle := h.le h'.mem h'.matches_
      omega
  · cases rest with
    | nil => exact (List.cons.inj hr).1.symm
    | cons e rest =>
      obtain ⟨rfl, -⟩ := List.cons.inj hr
      have hlt := hbefore w (by simp [hb]) h'.matches_
      have hle := h'.le h.mem h.matches_
      omega

/-! ## Over a table that registrations have built -/

namespace Registry

/-- What `zu_sniff` answers over a table: the codec of the longest match, else the first whose
sniffer accepts, else that nothing is known; and never a codec that cannot be detected. -/
structure Sniffs (r : Registry) (bytes : List UInt8) (answer : Status × CodecId) : Prop where
  magic : ∀ v, LongestMatch r.entries bytes v → answer = (.ok, v.codec)
  matched : ∀ e ∈ r.entries, e.Matches bytes → ∃ v, LongestMatch r.entries bytes v
  sniffer : (∀ e ∈ r.entries, ¬ e.Matches bytes) → ∀ before v after,
    r.entries = before ++ v :: after → (∀ e ∈ before, ¬ e.accepts bytes bytes.length = true) →
      v.accepts bytes bytes.length = true → answer = (.ok, v.codec)
  unsupported : (∀ e ∈ r.entries, ¬ e.Matches bytes ∧ ¬ e.accepts bytes bytes.length = true) →
    answer = (.errUnsupported, codecNone)
  detectable : ∀ e ∈ r.entries, e.magicLen = 0 → e.sniff = none → answer.2 ≠ e.codec

theorem accepts_append (e : Registrant) (bytes extra : List UInt8) :
    e.accepts (bytes ++ extra) bytes.length = e.accepts bytes bytes.length := by
  unfold Registrant.accepts
  rw [List.take_left, List.take_length]

/-- The answer is that of the loop, or of the first sniffer. -/
theorem zuSniff_cases {r : Registry} (h : r.Sound) (hword : bytes.length < wordSize)
    (extra : List UInt8) :
    (∃ v, LongestMatch r.entries bytes v ∧ r.zuSniff (bytes ++ extra) bytes.length = (.ok, v.codec)) ∨
      (∀ e ∈ r.entries, ¬ e.Matches bytes) ∧ r.zuSniff (bytes ++ extra) bytes.length =
        match r.entries.find? fun v => v.accepts bytes bytes.length with
        | some v => (.ok, v.codec)
        | none => (.errUnsupported, codecNone) := by
  unfold zuSniff
  dsimp only
  rcases sniffStep_foldl hword r.entries extra with ⟨hnone, hzero⟩ | ⟨v, hv, hlongest⟩
  · rw [hzero, if_neg (by simp)]
    refine .inr ⟨hnone, ?_⟩
    simp only [accepts_append]
  · obtain ⟨before, after, heq, -⟩ := hv.first
    have hnonzero := (h.identified v (by rw [heq]; simp)).nonzero
    rw [hlongest, if_pos hnonzero]
    exact .inl ⟨v, hv, rfl⟩

theorem Sound.eq_of_codec {r : Registry} (h : r.Sound) (hv : v ∈ r.entries) (hw : w ∈ r.entries)
    (heq : v.codec = w.codec) : v = w := by
  by_contra hne
  exact (h.apart.forall hv hw hne).codec heq

theorem Sound.sniffs {r : Registry} (h : r.Sound) (hword : bytes.length < wordSize)
    (extra : List UInt8) : r.Sniffs bytes (r.zuSniff (bytes ++ extra) bytes.length) := by
  have hcases := zuSniff_cases h hword extra
  constructor
  case magic =>
    intro v hv
    rcases hcases with ⟨w, hw, hans⟩ | ⟨hnone, -⟩
    · rw [hans, hv.unique hw]
    · exact absurd hv.matches_ (hnone v hv.mem)
  case matched =>
    intro e he hm
    rcases hcases with ⟨w, hw, -⟩ | ⟨hnone, -⟩
    · exact ⟨w, hw⟩
    · exact absurd hm (hnone e he)
  case sniffer =>
    intro hnone before v after heq hbefore hv
    rcases hcases with ⟨w, hw, -⟩ | ⟨-, hans⟩
    · exact absurd hw.matches_ (hnone w hw.mem)
    · have hfind : r.entries.find? (fun v => v.accepts bytes bytes.length) = some v :=
        List.find?_eq_some_iff_append.mpr ⟨hv, before, after, heq, by simpa using hbefore⟩
      rw [hans, hfind]
  case unsupported =>
    intro hnone
    rcases hcases with ⟨w, hw, -⟩ | ⟨-, hans⟩
    · exact absurd hw.matches_ (hnone w hw.mem).1
    · have hfind : r.entries.find? (fun v => v.accepts bytes bytes.length) = none :=
        List.find?_eq_none.mpr fun e he => (hnone e he).2
      rw [hans, hfind]
  case detectable =>
    intro e he hlen hsniff heq
    rcases hcases with ⟨w, hw, hans⟩ | ⟨-, hans⟩
    · rw [hans] at heq
      have hpos := hw.matches_.nonempty
      rw [h.eq_of_codec hw.mem he heq] at hpos
      omega
    · cases hfind : r.entries.find? fun v => v.accepts bytes bytes.length with
      | some w =>
        rw [hans, hfind] at heq
        have haccepts := List.find?_some hfind
        rw [h.eq_of_codec (List.mem_of_find?_eq_some hfind) he heq] at haccepts
        simp [Registrant.accepts, hsniff] at haccepts
      | none =>
        rw [hans, hfind] at heq
        exact (h.identified e he).nonzero heq.symm

/-- After any registrations `zu_sniff` picks the longest magic, reads nothing behind the bytes
that it is given, and where the matching magics differ in length does not depend on the order
of the registrations. -/
theorem sniff_picks (calls : List (Option Registrant)) (bytes : List UInt8)
    (hword : bytes.length < wordSize) :
    let r := (empty.registerAll calls).2
    r.Sniffs bytes (r.zuSniff bytes bytes.length) ∧
      (∀ extra, r.zuSniff (bytes ++ extra) bytes.length = r.zuSniff bytes bytes.length) ∧
      ∀ calls' : List (Option Registrant), (empty.registerAll calls').2.entries.Perm r.entries →
        (∃ e ∈ r.entries, e.Matches bytes) →
        (∀ e ∈ r.entries, ∀ e' ∈ r.entries, e.Matches bytes → e'.Matches bytes →
          e.magicLen = e'.magicLen → e = e') →
        (empty.registerAll calls').2.zuSniff bytes bytes.length = r.zuSniff bytes bytes.length := by
  intro r
  have hsound : r.Sound := (sound_empty.registerAll calls).1
  have hsniffs (extra : List UInt8) := hsound.sniffs hword extra
  have hself := hsniffs []
  rw [List.append_nil] at hself
  refine ⟨hself, fun extra => ?_, fun calls' hperm ⟨e, he, hm⟩ hdistinct => ?_⟩
  · have hcases := zuSniff_cases hsound hword []
    rw [List.append_nil] at hcases
    rcases hcases with ⟨v, hv, hans⟩ | ⟨hnone, hans⟩
    · rw [hans, (hsniffs extra).magic v hv]
    · rcases zuSniff_cases hsound hword extra with ⟨v, hv, -⟩ | ⟨-, hans'⟩
      · exact absurd hv.matches_ (hnone v hv.mem)
      · rw [hans, hans']
  · have hsound' := (sound_empty.registerAll calls').1
    have hself' := hsound'.sniffs hword []
    rw [List.append_nil] at hself'
    obtain ⟨v, hv⟩ := hself.matched e he hm
    obtain ⟨w, hw⟩ := hself'.matched e (hperm.mem_iff.mpr he) hm
    have hwr := hperm.mem_iff.mp hw.mem
    have hsame := hdistinct v hv.mem w hwr hv.matches_ hw.matches_
      ((hw.le (hperm.mem_iff.mpr hv.mem) hv.matches_).antisymm (hv.le hwr hw.matches_))
    rw [hself.magic v hv, hself'.magic w hw, hsame]

/-! ## Two magics, one the beginning of the other -/

/-- A codec of a vendor that decodes nothing, with a magic at the start. -/
def vendorRegistrant (codec : CodecId) (name : CString) (magic : List UInt8) : Registrant where
  structSize := vtableRequiredSize
  name := some name
  contentEncoding := none
  source := some name
  magic := some magic
  magicOffset := 0
  sniff := none
  encoder := ⟨true, true, true⟩
  decoder := ⟨true, true, true⟩
  vtable := { identityCodec with codec := codec }

def vendorShort : Registrant := vendorRegistrant 1024 (cstring ['a']) [0x1F]
def vendorLong : Registrant := vendorRegistrant 1025 (cstring ['b']) [0x1F, 0x8B]

theorem sniff_picks_longer :
    (empty.registerAll [some vendorShort, some vendorLong]).2.zuSniff [0x1F, 0x8B, 8] 3 =
      (.ok, 1025) := by
  refine (sniff_picks [some vendorShort, some vendorLong] [0x1F, 0x8B, 8] (by decide)).1.magic
    vendorLong ⟨⟨by decide, by decide, rfl⟩, [vendorShort], [], rfl, ?_, by simp⟩
  intro e he hm
  rw [List.mem_singleton.mp he]
  decide

end Registry

end Zukomp
