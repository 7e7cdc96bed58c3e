import Zukomp.Block.Decode

/-! # The search for the size of a block

liblz4 reports a capacity too small and a corrupt block alike. The search tells them apart by
the part of the block that fills the capacity, and ends at the least of its three ceilings.
-/

namespace Zukomp

open Library

/-- What liblz4 documents of any source, valid or not: `Begins b c` says that the first `c`
bytes of the output of `b` are well formed. -/
structure Lz4Judges (Z : Lz4) extends Lz4Blocks Z where
  Begins : List UInt8 → ℕ → Prop
  sound : ∀ {b x cap}, b.length ≤ intMax → cap ≤ intMax → Z.decompressSafe b cap = some x →
    Block b x ∧ x.length ≤ cap
  filled : ∀ {b cap}, b.length ≤ intMax → cap ≤ intMax →
    ((∃ text, Z.decompressPartial b cap = some text ∧ cap ≤ text.length) ↔ Begins b cap)
  begins_mono : ∀ {b c c'}, c ≤ c' → Begins b c' → Begins b c
  begins_iff : ∀ {b x c}, Block b x → (Begins b c ↔ c ≤ x.length)

/-! ## The reference library -/

/-- A run of literals is written in one way only. -/
theorem lz4Literals_literalRun {b x : List UInt8} (h : lz4LiteralRun b = some x) :
    b = lz4Literals x := by
  cases b with
  | nil => cases h
  | cons token rest =>
    rw [lz4LiteralRun] at h
    by_cases hlong : token = 0xF0
    · rw [if_pos hlong] at h
      cases hdrop : rest.dropWhile (· == 255) with
      | nil =>
        rw [hdrop] at h
        cases h
      | cons e text =>
        rw [hdrop] at h
        dsimp only at h
        split_ifs at h with hlen
        obtain rfl := Option.some.inj h
        have hne : e ≠ 255 := by
          have := List.head_dropWhile_not (· == (255 : UInt8)) (l := rest) (by simp [hdrop])
          simpa [hdrop] using this
        have hlt : e.toNat < 255 := by
          have := e.toNat_lt
          have : e.toNat ≠ 255 := fun he => hne (UInt8.toNat_inj.mp he)
          omega
        have hones : rest.takeWhile (· == 255) =
            List.replicate (rest.takeWhile (· == 255)).length 255 :=
          List.eq_replicate_iff.mpr ⟨rfl, fun a ha => by simpa using List.all_eq_true.mp List.all_takeWhile a ha⟩
        set k := (rest.takeWhile (· == 255)).length with hk
        have hquot : (text.length - 15) / 255 = k := by omega
        have hrem : (text.length - 15) % 255 = e.toNat := by omega
        rw [lz4Literals, if_neg (by omega), hquot, hrem, UInt8.ofNat_toNat, hlong, ← hones, ← hdrop,
          List.takeWhile_append_dropWhile]
    · rw [if_neg hlong] at h
      split_ifs at h with hlen
      obtain rfl := Option.some.inj h
      have htoken := token.toNat_lt
      have hshort : rest.length ≠ 15 := fun heq => by
        rw [heq] at hlen
        exact hlong (UInt8.toNat_inj.mp hlen)
      rw [lz4Literals, if_pos (by omega), ← hlen, UInt8.ofNat_toNat]

def refLz4Judges : Lz4Judges refLz4 where
  toLz4Blocks := refLz4Blocks
  Begins b c := ∃ x, b = lz4Literals x ∧ c ≤ x.length
  sound := by
    rintro b x cap - - h
    obtain ⟨hrun, hcap⟩ := Option.filter_eq_some_iff.mp h
    exact ⟨lz4Literals_literalRun hrun, by simpa using hcap⟩
  filled := by
    rintro b cap - -
    constructor
    · rintro ⟨text, hpart, hlen⟩
      obtain ⟨x, hrun, rfl⟩ := Option.map_eq_some_iff.mp hpart
      rw [List.length_take] at hlen
      exact ⟨x, lz4Literals_literalRun hrun, by omega⟩
    · rintro ⟨x, rfl, hle⟩
      refine ⟨x.take cap, by simp [refLz4, lz4LiteralRun_literals], ?_⟩
      rw [List.length_take]
      omega
  begins_mono := by
    rintro b c c' hle ⟨x, hb, hc⟩
    exact ⟨x, hb, hle.trans hc⟩
  begins_iff := by
    rintro b x c rfl
    constructor
    · rintro ⟨y, hxy, hc⟩
      have hrun := lz4LiteralRun_literals x
      rw [hxy, lz4LiteralRun_literals] at hrun
      exact Option.some.inj hrun ▸ hc
    · exact fun hc => ⟨x, rfl, hc⟩

/-! ## One try -/

variable {Z : Lz4} {b x : List UInt8} {ceiling cap : ℕ} {limited : Bool}

/-- What a try at a capacity comes to. -/
inductive Lz4bTried (J : Lz4Judges Z) (b : List UInt8) (ceiling : ℕ) (limited : Bool) (cap : ℕ) :
    ℕ ⊕ Except Status (List UInt8) → Prop
  | decoded {x : List UInt8} (block : J.Block b x) (fits : x.length ≤ cap) :
      Lz4bTried J b ceiling limited cap (.inr (.ok x))
  | corrupt (none_ : ∀ x, J.Block b x → cap < x.length) (begins : ¬ J.Begins b cap) :
      Lz4bTried J b ceiling limited cap (.inr (.error .errInvalidData))
  | stopped (none_ : ∀ x, J.Block b x → cap < x.length) (begins : J.Begins b cap)
      (at_ : cap = ceiling) : Lz4bTried J b ceiling limited cap
        (.inr (.error (if limited then .errOutputLimit else .errInvalidData)))
  | larger {next : ℕ} (none_ : ∀ x, J.Block b x → cap < x.length) (begins : J.Begins b cap)
      (lt : cap < next) (le : next ≤ ceiling) : Lz4bTried J b ceiling limited cap (.inl next)

theorem lz4bTry_tried (J : Lz4Judges Z) (hb : b.length ≤ intMax) (hceil : ceiling ≤ intMax)
    (hpos : 0 < cap) (hcap : cap ≤ ceiling) :
    Lz4bTried J b ceiling limited cap (lz4bTry Z b ceiling limited cap) := by
  have hint := hcap.trans hceil
  unfold lz4bTry
  cases hsafe : Z.decompressSafe b cap with
  | some x =>
    obtain ⟨hblock, hfits⟩ := J.sound hb hint hsafe
    exact .decoded hblock hfits
  | none =>
    have hover : ∀ x, J.Block b x → cap < x.length := fun x hblock => by
      by_contra hle
      rw [J.safe hblock hb hint (Nat.not_lt.mp hle)] at hsafe
      cases hsafe
    have hfilled := J.filled hb hint
    cases hpart : Z.decompressPartial b cap with
    | none =>
      refine .corrupt hover fun hbegins => ?_
      obtain ⟨text, htext, -⟩ := hfilled.mpr hbegins
      rw [hpart] at htext
      cases htext
    | some text =>
      dsimp only
      by_cases hlen : text.length < cap
      · rw [if_pos hlen]
        refine .corrupt hover fun hbegins => ?_
        obtain ⟨text', htext, hle⟩ := hfilled.mpr hbegins
        obtain rfl : text = text' := Option.some.inj (hpart.symm.trans htext)
        omega
      · have hbegins := hfilled.mp ⟨text, hpart, Nat.not_lt.mp hlen⟩
        rw [if_neg hlen]
        by_cases hend : ceiling ≤ cap
        · rw [if_pos hend]
          exact .stopped hover hbegins (hcap.antisymm hend)
        · rw [if_neg hend]
          refine .larger hover hbegins ?_ ?_ <;> split_ifs <;> omega

/-! ## The whole search -/

variable {s : Lz4bState}

/-- The least of `max_output` (where it is set), of what the block's bytes can make, and of
`INT_MAX`. -/
def Lz4bState.outputBound (s : Lz4bState) : ℕ :=
  let made := min (255 * s.input.length + 64) intMax
  if s.maxOutput = 0 then made else min s.maxOutput.toNat made

/-- `max_output` is less than what the block's bytes can make, and than `INT_MAX`. -/
def Lz4bState.Limited (s : Lz4bState) : Prop :=
  s.maxOutput ≠ 0 ∧ s.maxOutput.toNat < min (255 * s.input.length + 64) intMax

theorem lz4bCeiling_eq (s : Lz4bState) : (lz4bCeiling s).1 = s.outputBound := by
  unfold lz4bCeiling Lz4bState.outputBound
  dsimp only
  by_cases hmax : s.maxOutput = 0
  · rw [if_neg (by simp [hmax]), if_pos hmax, Nat.mul_comm]
  · rw [if_neg hmax, Nat.mul_comm]
    split_ifs with h <;> simp only [hmax, not_false_eq_true, ne_eq, true_and] at h <;> omega

theorem lz4bCeiling_limited (s : Lz4bState) : (lz4bCeiling s).2 = true ↔ s.Limited := by
  unfold lz4bCeiling Lz4bState.Limited
  rw [Nat.mul_comm]
  dsimp only
  split_ifs with h
  · exact iff_of_true rfl h
  · exact iff_of_false id h

theorem Lz4bState.Limited.outputBound (h : s.Limited) : s.outputBound = s.maxOutput.toNat := by
  unfold Lz4bState.outputBound
  rw [if_neg h.1]
  exact Nat.min_eq_left h.2.le

theorem Lz4bState.outputBound_pos (s : Lz4bState) : 0 < s.outputBound := by
  have hint : 0 < intMax := by norm_num [intMax]
  unfold Lz4bState.outputBound
  dsimp only
  split_ifs with h
  · omega
  · have : s.maxOutput.toNat ≠ 0 := fun h0 => h (UInt64.toNat_inj.mp h0)
    omega

theorem Lz4bState.outputBound_le (s : Lz4bState) : s.outputBound ≤ intMax := by
  unfold Lz4bState.outputBound
  dsimp only
  split_ifs <;> omega

/-- The first capacity the search tries. -/
def Lz4bState.firstCap (s : Lz4bState) : ℕ :=
  min (max (s.input.length * 4) 4096) s.outputBound

/-- A turn of the search of `s`. -/
def Lz4bState.searchTurn (Z : Lz4) (s : Lz4bState) : ℕ → ℕ ⊕ Except Status (List UInt8) :=
  lz4bTry Z s.input s.outputBound (lz4bCeiling s).2

theorem lz4bSearch_eq (Z : Lz4) (s : Lz4bState) :
    lz4bSearch Z s = runLoop (s.searchTurn Z) (fun _ => .error .errInternal) (s.outputBound + 1)
      s.firstCap := by
  rw [lz4bSearch, lz4bCeiling_eq]
  rfl

/-- A capacity of the search lies within the bound. -/
def Lz4bState.Capacity (s : Lz4bState) (cap : ℕ) : Prop := 0 < cap ∧ cap ≤ s.outputBound

theorem Lz4bState.firstCap_capacity (s : Lz4bState) : s.Capacity s.firstCap := by
  have := s.outputBound_pos
  unfold Lz4bState.Capacity Lz4bState.firstCap
  omega

theorem lz4bTry_larger (hpos : 0 < cap) {next : ℕ}
    (h : lz4bTry Z b ceiling limited cap = .inl next) : cap < next ∧ next ≤ ceiling := by
  unfold lz4bTry at h
  split at h
  · cases h
  split at h
  · cases h
  split_ifs at h with hshort hend hquarter
  · cases h
    omega
  · cases h
    omega

/-- The end of a search whose tries all come to `Post`. -/
theorem lz4bSearch_rule {Post : Except Status (List UInt8) → Prop}
    (hpost : ∀ cap r, s.Capacity cap → s.searchTurn Z cap = .inr r → Post r) :
    Returns (s.searchTurn Z) s.firstCap (lz4bSearch Z s) ∧ Post (lz4bSearch Z s) := by
  have hturn (cap : ℕ) (hcap : s.Capacity cap) :
      Turn (fun next => s.Capacity next ∧ s.outputBound - next < s.outputBound - cap) Post
        (s.searchTurn Z cap) := by
    cases hres : s.searchTurn Z cap with
    | inr r => exact hpost cap r hcap hres
    | inl next =>
      obtain ⟨hlt, hle⟩ := lz4bTry_larger hcap.1 hres
      exact ⟨⟨hcap.1.trans hlt, hle⟩, by omega⟩
  have hfuel : s.outputBound - s.firstCap < s.outputBound + 1 := by omega
  rw [lz4bSearch_eq]
  refine ⟨?_, runLoop_rule s.Capacity Post _ hturn s.firstCap_capacity hfuel⟩
  exact returns_runLoop s.Capacity _ (fun cap hcap => (hturn cap hcap).mono (fun _ h => h)
    fun _ _ => trivial) s.firstCap_capacity hfuel

/-- Each try of a search comes to what liblz4 says of the capacity. -/
theorem lz4bSearch_turn (J : Lz4Judges Z) (hn : s.input.length ≤ lz4MaxInputSize)
    (hcap : s.Capacity cap) :
    Lz4bTried J s.input s.outputBound (lz4bCeiling s).2 cap (s.searchTurn Z cap) := by
  have hb : s.input.length ≤ intMax := hn.trans (by norm_num [lz4MaxInputSize, intMax])
  exact lz4bTry_tried J hb s.outputBound_le hcap.1 hcap.2

/-- How a search ends. -/
inductive Lz4bFound (J : Lz4Judges Z) (s : Lz4bState) : Except Status (List UInt8) → Prop
  | decoded {x : List UInt8} (block : J.Block s.input x) (fits : x.length ≤ s.outputBound) :
      Lz4bFound J s (.ok x)
  | refused (limited : s.Limited) (none_ : ∀ x, J.Block s.input x → s.outputBound < x.length)
      (begins : J.Begins s.input s.outputBound) : Lz4bFound J s (.error .errOutputLimit)
  | corrupt (none_ : ∀ x, J.Block s.input x → s.outputBound < x.length)
      (other : s.Limited → ¬ J.Begins s.input s.outputBound) :
      Lz4bFound J s (.error .errInvalidData)

theorem lz4bSearch_found (J : Lz4Judges Z) (hn : s.input.length ≤ lz4MaxInputSize) :
    Returns (s.searchTurn Z) s.firstCap (lz4bSearch Z s) ∧ Lz4bFound J s (lz4bSearch Z s) := by
  refine lz4bSearch_rule fun cap r hcap hres => ?_
  have htried := lz4bSearch_turn J hn hcap
  rw [hres] at htried
  cases htried with
  | decoded block fits => exact .decoded block (fits.trans hcap.2)
  | corrupt none_ begins =>
    refine .corrupt (fun x hx => ?_) fun _ hbound => begins (J.begins_mono hcap.2 hbound)
    exact absurd ((J.begins_iff hx).mpr (none_ x hx).le) begins
  | stopped none_ begins at_ =>
    rw [at_] at none_ begins
    by_cases hlim : s.Limited
    · rw [if_pos ((lz4bCeiling_limited s).mpr hlim)]
      exact .refused hlim none_ begins
    · rw [if_neg (mt (lz4bCeiling_limited s).mp hlim)]
      exact .corrupt none_ fun h => absurd h hlim

theorem Lz4Judges.text_unique (J : Lz4Judges Z) {y : List UInt8} (hb : b.length ≤ intMax)
    (hx : J.Block b x) (hy : J.Block b y) (hxi : x.length ≤ intMax) (hyi : y.length ≤ intMax) :
    x = y := by
  have hsafe := J.safe hx hb le_rfl hxi
  rw [J.safe hy hb le_rfl hyi] at hsafe
  exact (Option.some.inj hsafe).symm

variable {J : Lz4Judges Z} {r : Except Status (List UInt8)}

theorem Lz4bFound.ok_iff (h : Lz4bFound J s r) (hn : s.input.length ≤ lz4MaxInputSize) :
    r = .ok x ↔ J.Block s.input x ∧ x.length ≤ s.outputBound := by
  have hb : s.input.length ≤ intMax := hn.trans (by norm_num [lz4MaxInputSize, intMax])
  have hle := s.outputBound_le
  constructor
  · rintro rfl
    cases h with
    | decoded block fits => exact ⟨block, fits⟩
  · rintro ⟨hx, hfits⟩
    cases h with
    | decoded block fits => rw [J.text_unique hb block hx (fits.trans hle) (hfits.trans hle)]
    | refused limited none_ begins => exact absurd hfits (Nat.not_le.mpr (none_ x hx))
    | corrupt none_ other => exact absurd hfits (Nat.not_le.mpr (none_ x hx))

theorem Lz4bFound.outputLimit_iff (h : Lz4bFound J s r) : r = .error .errOutputLimit ↔
    s.Limited ∧ (¬ ∃ x, J.Block s.input x ∧ x.length ≤ s.maxOutput.toNat) ∧
      J.Begins s.input s.maxOutput.toNat := by
  constructor
  · rintro rfl
    cases h with
    | refused limited none_ begins =>
      rw [limited.outputBound] at none_ begins
      exact ⟨limited, fun ⟨x, hx, hle⟩ => absurd hle (Nat.not_le.mpr (none_ x hx)), begins⟩
  · rintro ⟨hlim, hnone, hbegins⟩
    rw [← hlim.outputBound] at hnone hbegins
    cases h with
    | decoded block fits => exact absurd ⟨_, block, fits⟩ hnone
    | refused limited none_ begins => rfl
    | corrupt none_ other => exact absurd hbegins (other hlim)

theorem Lz4bFound.above (h : Lz4bFound J s r) (hx : J.Block s.input x) (hmax : s.maxOutput ≠ 0)
    (hlt : s.maxOutput.toNat < x.length) (hint : s.maxOutput.toNat < intMax) : r = .error .errOutputLimit := by
  have hexpands := J.expands hx
  refine h.outputLimit_iff.mpr ⟨⟨hmax, by omega⟩, ?_, (J.begins_iff hx).mpr hlt.le⟩
  rintro ⟨y, hy, hle⟩
  have : x.length ≤ y.length := (J.begins_iff hy).mp ((J.begins_iff hx).mpr le_rfl)
  omega

theorem Lz4bFound.invalidData {st : Status} (h : Lz4bFound J s (.error st))
    (hne : st ≠ .errOutputLimit) : st = .errInvalidData := by
  cases h with
  | refused limited none_ begins => exact absurd rfl hne
  | corrupt none_ other => rfl

/-- What the search of `s` answers, and the capacities it asks for. -/
structure Lz4bSearches (J : Lz4Judges Z) (s : Lz4bState) : Prop where
  ends : Returns (s.searchTurn Z) s.firstCap (lz4bSearch Z s)
  ok_iff : ∀ x, lz4bSearch Z s = .ok x ↔ J.Block s.input x ∧ x.length ≤ s.outputBound
  outputLimit_iff : lz4bSearch Z s = .error .errOutputLimit ↔ s.Limited ∧
    (¬ ∃ x, J.Block s.input x ∧ x.length ≤ s.maxOutput.toNat) ∧
      J.Begins s.input s.maxOutput.toNat
  above : ∀ x, J.Block s.input x → s.maxOutput ≠ 0 → s.maxOutput.toNat < x.length →
    s.maxOutput.toNat < intMax → lz4bSearch Z s = .error .errOutputLimit
  invalidData : ∀ st, lz4bSearch Z s = .error st → st ≠ .errOutputLimit → st = .errInvalidData
  -- no capacity passes the bound, an `int`, and the products of the source fit a `size_t`
  capacity : ∀ cap, Reaches (s.searchTurn Z) s.firstCap cap → 0 < cap ∧ cap ≤ s.outputBound
  bound : s.outputBound ≤ intMax ∧ 4 * s.outputBound < wordSize ∧
    255 * s.input.length + 64 < wordSize

/-- The search finds the text of every block that decodes within the bound, and separates the
blocks that `max_output` refuses from the corrupt ones. -/
theorem lz4bSearch_exact (J : Lz4Judges Z) (s : Lz4bState)
    (hn : s.input.length ≤ lz4MaxInputSize) : Lz4bSearches J s := by
  obtain ⟨hends, hfound⟩ := lz4bSearch_found J hn
  have hbound := s.outputBound_le
  refine ⟨hends, fun x => hfound.ok_iff hn, hfound.outputLimit_iff,
    fun x hx hmax hlt hint => hfound.above hx hmax hlt hint,
    fun st heq hne => Lz4bFound.invalidData (heq ▸ hfound) hne, fun cap hreach => ?_, hbound, ?_,
    ?_⟩
  · refine hreach.invariant s.Capacity (fun cap next hcap hturn => ?_) s.firstCap_capacity
    obtain ⟨hlt, hle⟩ := lz4bTry_larger hcap.1 hturn
    exact ⟨hcap.1.trans hlt, hle⟩
  · norm_num [intMax] at hbound ⊢
    omega
  · norm_num [lz4MaxInputSize] at hn ⊢
    omega

/-- The two letters of a block, searched with room for one. -/
theorem lz4bSearch_exact_letters : Lz4bSearches refLz4Judges
    { lz4bNew false levelDefault none with maxOutput := 1, input := [0x20, 0x61, 0x62] } :=
  lz4bSearch_exact refLz4Judges _ (by decide)

end Zukomp
