import Zukomp.Package.Arguments
import Zukomp.Package.Builtins

/-! # The cached capability table, codecs.R

Every argument check reads the table of codecs, which is built once and kept until the registry's
counter moves. Codecs may be registered between any two of its uses.
-/

namespace Zukomp

namespace Registry.Sound

variable {levels : Registrant → AbstractLevels} {r : Registry}

theorem eq_of_generation {r' : Registry} (h : r.Sound) (h' : r'.Sound)
    (hle : r'.entries <+: r.entries) (hgen : r'.generation = r.generation) : r' = r := by
  have hlen : r'.entries.length = r.entries.length := by
    rw [← h'.generation, ← h.generation, hgen]
  obtain ⟨entries, generation⟩ := r
  obtain ⟨entries', generation'⟩ := r'
  have hentries : entries' = entries := hle.eq_of_length hlen
  rw [hentries, show generation' = generation from hgen]

theorem rowCodec_ne (h : r.Sound) {row : CodecRow} (hrow : row ∈ r.codecTable levels) :
    r.rowCodec row ≠ codecNone := by
  have hmem : r.rowCodec row ∈ declared.map Declared.codec ++ r.extras.map Registrant.codec :=
    h.table_codecs levels ▸ List.mem_map_of_mem hrow
  have hdeclared : ∀ d ∈ declared, d.codec ≠ codecNone := by decide
  rcases List.mem_append.mp hmem with hmem | hmem
  · obtain ⟨d, hd, heq⟩ := List.mem_map.mp hmem
    exact heq ▸ hdeclared d hd
  · obtain ⟨v, hv, heq⟩ := List.mem_map.mp hmem
    exact heq ▸ (h.identified v (mem_extras.mp hv).1).nonzero

theorem registered_row (h : r.Sound) {v : Registrant} (hv : v ∈ r.entries) :
    availableRow levels v ∈ r.codecTable levels := by
  rw [mem_codecTable]
  cases hdecl : declaredFor v.codec with
  | none => exact .inr ⟨v, mem_extras.mpr ⟨hv, hdecl⟩, rfl⟩
  | some d =>
    have hcodec : d.codec = v.codec := by simpa using List.find?_some hdecl
    obtain ⟨w, hw⟩ := Option.isSome_iff_exists.mp (lookup_entry hv (h.identified v hv).nonzero)
    obtain ⟨hmem, hsame⟩ := lookup_codec hw
    refine .inl ⟨d, List.mem_of_find?_eq_some hdecl, ?_⟩
    rw [hcodec, hw, h.eq_of_codec hmem hv hsame]
    rfl

theorem row_of_lookup (h : r.Sound) {name : CString} (hne : r.codecLookup (some name) ≠ codecNone) :
    ∃ row ∈ r.codecTable levels, row.id = some name := by
  unfold Registry.codecLookup at hne
  dsimp only at hne
  cases hfind : declared.find? fun d => d.name = name with
  | some d =>
    have hd := List.mem_of_find?_eq_some hfind
    have hname : d.name = name := by simpa using List.find?_some hfind
    exact ⟨_, (mem_codecTable levels).mpr (.inl ⟨d, hd, rfl⟩),
      hname ▸ (h.declared_row levels hd).1⟩
  | none =>
    cases hreg : r.entries.find? fun e => e.name = some name with
    | some e =>
      have hname : e.name = some name := by simpa using List.find?_some hreg
      exact ⟨_, h.registered_row (List.mem_of_find?_eq_some hreg), hname⟩
    | none =>
      rw [hfind, hreg] at hne
      exact absurd rfl hne

end Registry.Sound

namespace Package

variable (levels : Registrant → AbstractLevels)

/-- The state of `zu_codec_table`, `NULL` as `none`. -/
structure TableCache where
  cache : Option (List CodecRow)
  generation : Option UInt64

def TableCache.codecTable (c : TableCache) (r : Registry) : List CodecRow × TableCache :=
  let rebuilt := (r.codecTable levels, ⟨some (r.codecTable levels), some r.generation⟩)
  match c.cache with
  | none => rebuilt
  | some rows => if c.generation ≠ some r.generation then rebuilt else (rows, c)

def codecAvailable (r : Registry) (name : CString) : Option Bool :=
  if r.codecLookup name = codecNone then none
  else some (r.lookup (r.codecLookup name)).isSome

def kompCodecAvailable (r : Registry) : RValue → Except Condition Bool
  | .character [some codec] =>
    match codecAvailable r codec with
    | none => .error (abort .unsupportedCodec codec)
    | some available => .ok available
  | _ => .error (abort .invalidArgument none)

/-- A registry and a cache that registrations and uses of the table lead to, in any order. -/
inductive TableRun : Registry → TableCache → Prop
  | load : TableRun .empty ⟨none, none⟩
  | register {r : Registry} {c : TableCache} (h : TableRun r c) (call : Option Registrant) :
    TableRun (r.registerCodec call).2 c
  | table {r : Registry} {c : TableCache} (h : TableRun r c) :
    TableRun r (c.codecTable levels r).2

variable {levels} {r : Registry} {c : TableCache}

/-- What the cache holds is the table of a beginning of the registry. -/
structure TableCache.Holds (levels : Registrant → AbstractLevels) (c : TableCache) (r : Registry) :
    Prop where
  sound : r.Sound
  built : ∀ rows, c.cache = some rows → ∃ r' : Registry, r'.Sound ∧ r'.entries <+: r.entries ∧
    rows = r'.codecTable levels ∧ c.generation = some r'.generation

/-- The cache answers with the table of the registry as it is. -/
theorem TableCache.Holds.codecTable (h : c.Holds levels r) :
    (c.codecTable levels r).1 = r.codecTable levels ∧ (c.codecTable levels r).2.Holds levels r := by
  have hbuilt : TableCache.Holds levels ⟨some (r.codecTable levels), some r.generation⟩ r := by
    refine ⟨h.sound, fun rows hrows => ?_⟩
    cases hrows
    exact ⟨r, h.sound, List.prefix_rfl, rfl, rfl⟩
  unfold TableCache.codecTable
  cases hcache : c.cache with
  | none => exact ⟨rfl, hbuilt⟩
  | some rows =>
    dsimp only
    by_cases hgen : c.generation = some r.generation
    · obtain ⟨r', hsound, hle, hrows, hgen'⟩ := h.built rows hcache
      have heq : r' = r :=
        h.sound.eq_of_generation hsound hle (Option.some.inj (hgen'.symm.trans hgen))
      rw [if_neg (not_not.mpr hgen)]
      exact ⟨heq ▸ hrows, h⟩
    · rw [if_pos hgen]
      exact ⟨rfl, hbuilt⟩

theorem TableRun.holds (h : TableRun levels r c) : c.Holds levels r := by
  induction h with
  | load => exact ⟨Registry.sound_empty, by simp⟩
  | register _ call ih =>
    refine ⟨ih.sound.registerCodec call, fun rows hrows => ?_⟩
    obtain ⟨r', hsound, hle, hrows, hgen⟩ := ih.built rows hrows
    exact ⟨r', hsound, hle.trans (Registry.registerCodec_prefix _ call), hrows, hgen⟩
  | table _ ih => exact ih.codecTable.2

/-! ## A name is available where its codec is -/

/-- The rows of a name: the one of its codec, or none where no codec has the name. -/
theorem rowsOf_cases (levels : Registrant → AbstractLevels) (h : r.Sound) (name : CString) :
    (r.codecLookup (some name) = codecNone ∧ rowsOf (r.codecTable levels) name = []) ∨
      ∃ row ∈ r.codecTable levels, row.id = some name ∧ r.codecLookup (some name) ≠ codecNone ∧
        rowsOf (r.codecTable levels) name = [row] := by
  by_cases hrow : ∃ row ∈ r.codecTable levels, row.id = some name
  · obtain ⟨row, hrow, hid⟩ := hrow
    have hnodup : ((r.codecTable levels).map CodecRow.id).Nodup :=
      h.table_names levels ▸ h.names_nodup
    have hone : (rowsOf (r.codecTable levels) name).length = 1 := by
      have hmem : some name ∈ (r.codecTable levels).map CodecRow.id := List.mem_map.mpr ⟨row, hrow, hid⟩
      have hcount := List.count_eq_one_of_mem hnodup hmem
      rw [rowsOf, ← List.countP_eq_length_filter, ← hcount, List.count, List.countP_map]
      exact List.countP_congr fun e _ => by simp
    obtain ⟨row', hrow'⟩ := List.length_eq_one_iff.mp hone
    have hmem : row' ∈ rowsOf (r.codecTable levels) name := by simp [hrow']
    obtain ⟨hmem, hid'⟩ := List.mem_filter.mp hmem
    have hid' : row'.id = some name := by simpa using hid'
    exact .inr ⟨row', hmem, hid', hid' ▸ h.rowCodec_ne hmem, hrow'⟩
  · refine .inl ⟨not_not.mp fun hne => hrow (h.row_of_lookup hne), List.filter_eq_nil_iff.mpr ?_⟩
    intro row hmem
    simpa using fun hid => hrow ⟨row, hmem, hid⟩

/-- Whether a codec can be used is answered alike by the table and by the registry. -/
theorem checkCodecName_available (h : r.Sound) {name : CString} (hauto : name ≠ auto)
    (allowAuto : Bool) :
    checkCodecName (r.codecTable levels) allowAuto (.character [some name]) =
      match kompCodecAvailable r (.character [some name]) with
      | .ok true => .ok name
      | .ok false => .error (abort .unsupportedCodec name)
      | .error c => .error c := by
  unfold checkCodecName kompCodecAvailable codecAvailable
  dsimp only
  rw [if_neg hauto]
  rcases rowsOf_cases levels h name with ⟨hnone, hrows⟩ | ⟨row, hrow, hid, hne, hrows⟩
  · rw [hrows, if_pos hnone]
  · have havail := (h.available_iff levels hrow).2
    rw [Registry.rowCodec, hid] at havail
    rw [hrows, if_neg hne]
    dsimp only
    by_cases hlookup : (r.lookup (r.codecLookup (some name))).isSome = true
    · rw [if_pos (havail.mpr hlookup), hlookup]
    · rw [if_neg (fun ha => hlookup (havail.mp ha)), Bool.eq_false_iff.mpr hlookup]

/-- After any registrations and uses of the table, in any order, the table shows the registry as it
is, and a codec can be named where `komp_codec_available` says so. -/
theorem codecTable_coherent (h : TableRun levels r c) :
    (c.codecTable levels r).1 = r.codecTable levels ∧
    ∀ name, name ≠ auto → ∀ allowAuto,
      (checkCodecName (c.codecTable levels r).1 allowAuto (.character [some name]) = .ok name ↔
        kompCodecAvailable r (.character [some name]) = .ok true) ∧
      (checkCodecName (c.codecTable levels r).1 allowAuto (.character [some name]) =
          .error (abort .unsupportedCodec name) ↔
        kompCodecAvailable r (.character [some name]) ≠ .ok true) := by
  obtain ⟨hrows, -⟩ := h.holds.codecTable
  refine ⟨hrows, fun name hauto allowAuto => ?_⟩
  rw [hrows, checkCodecName_available h.holds.sound hauto]
  unfold kompCodecAvailable
  dsimp only
  cases codecAvailable r name with
  | none => simp
  | some available => cases available <;> simp

/-- A table that was used before a codec was registered names it afterwards. -/
theorem codecTable_coherent_vendor :
    let r := (Registry.empty.registerCodec (some Registry.vendorShort)).2
    let c := (TableCache.codecTable builtinLevels ⟨none, none⟩ .empty).2
    checkCodecName (c.codecTable builtinLevels r).1 false
      (.character [Registry.vendorShort.name]) = .ok (cstring ['a']) := by
  intro r c
  have h : TableRun builtinLevels r c := .register (.table .load) (some Registry.vendorShort)
  exact ((codecTable_coherent h).2 (cstring ['a']) (by decide) false).1.mpr rfl

/-! ## Levels -/

theorem rowsOf_registered (h : r.Sound) {v : Registrant} (hv : v ∈ r.entries) {name : CString}
    (hname : v.name = some name) : rowsOf (r.codecTable levels) name = [availableRow levels v] := by
  have hmem : availableRow levels v ∈ rowsOf (r.codecTable levels) name :=
    List.mem_filter.mpr ⟨h.registered_row hv, decide_eq_true hname⟩
  rcases rowsOf_cases levels h name with ⟨-, hrows⟩ | ⟨row, -, -, -, hrows⟩
  · rw [hrows] at hmem
    cases hmem
  · rw [hrows] at hmem ⊢
    rw [List.mem_singleton.mp hmem]

theorem integerColumn_eq {n : ℤ} (h : n ≠ naInteger) : integerColumn n = some n := if_neg h

/-- The range check of R is that of the C driver where the lower bound is shown. -/
theorem checkLevelRange_eq (h : r.Sound) {v : Registrant} (hv : v ∈ r.entries) {name : CString}
    (hname : v.name = some name) (hmin : v.vtable.levelMin ≠ naInteger) {level : ℤ}
    (hlevel : naInteger < level) :
    checkLevelRange (r.codecTable levels) name level = .ok level ↔
      Zukomp.checkLevel v.vtable level = .ok := by
  have hne : level ≠ levelDefault := hlevel.ne'
  unfold checkLevelRange
  rw [rowsOf_registered h hv hname]
  unfold Zukomp.checkLevel
  rw [if_neg hne]
  by_cases haxis : v.hasLevels = true
  · have hsome : ¬ (v.vtable.levelMin = 0 ∧ v.vtable.levelMax = 0 ∧ v.vtable.levelDefault = 0) := by
      simpa only [Registrant.hasLevels, decide_eq_true_eq] using haxis
    rw [if_neg hsome]
    simp only [availableRow, if_pos haxis, integerColumn_eq hmin]
    by_cases hmax : v.vtable.levelMax = naInteger
    · -- `NA` passes no level here, and no level lies below the least integer in C
      have hover : v.vtable.levelMax < level := hmax ▸ hlevel
      simp [integerColumn, hmax, hmax ▸ hover]
    · rw [integerColumn_eq hmax]
      dsimp only
      split_ifs <;> simp
  · have hnone : v.vtable.levelMin = 0 ∧ v.vtable.levelMax = 0 ∧ v.vtable.levelDefault = 0 := by
      simpa [Registrant.hasLevels] using haxis
    rw [if_pos hnone]
    simp only [availableRow, if_neg haxis]
    split_ifs <;> simp_all

/-- A level that a codec accepts, and that an integer column shows. -/
def Shown (v : Registrant) (level : ℤ) : Prop :=
  level ≠ naInteger ∧ Zukomp.checkLevel v.vtable level = .ok

/-- The abstract levels of a codec are levels of its own. -/
def Advertised (levels : Registrant → AbstractLevels) (v : Registrant) : Prop :=
  v.hasLevels = true → Shown v ((levels v).levelFast v) ∧ Shown v ((levels v).levelBest v)

theorem levelFromName_eq (h : r.Sound) {v : Registrant} (hv : v ∈ r.entries) {name : CString}
    (hname : v.name = some name) {level : CString}
    (hlevel : level ∈ [fastName, defaultName, bestName]) :
    levelFromName (r.codecTable levels) name [some level] =
      .ok (if v.hasLevels = false ∨ v.vtable.levelMin = naInteger ∨ level = defaultName then none
        else if level = fastName then some (integerColumn ((levels v).levelFast v))
        else some (integerColumn ((levels v).levelBest v))) := by
  have hknown : ¬ (level ≠ fastName ∧ level ≠ defaultName ∧ level ≠ bestName) := by
    rintro ⟨hfast, hdefault, hbest⟩
    simp [hfast, hdefault, hbest] at hlevel
  unfold levelFromName
  dsimp only
  rw [if_neg hknown, rowsOf_registered h hv hname]
  dsimp only [availableRow]
  by_cases haxis : v.hasLevels = true
  · simp only [haxis, Bool.true_eq_false, false_or]
    by_cases hmin : v.vtable.levelMin = naInteger
    · simp [integerColumn, hmin]
    · rw [integerColumn_eq hmin]
      split_ifs <;> simp_all
  · simp [haxis]

theorem checkLevelRange_ok {rows : List CodecRow} {name : CString} {n m : ℤ}
    (h : checkLevelRange rows name n = .ok m) : m = n := by
  unfold checkLevelRange at h
  split at h
  · split at h <;> (try split_ifs at h) <;> cases h <;> rfl
  · cases h
    rfl

theorem checkLevel_whole (h : r.Sound) {v : Registrant} (hv : v ∈ r.entries) {name : CString}
    (hname : v.name = some name) (hmin : v.vtable.levelMin ≠ naInteger) {n : ℤ}
    (hlo : -integerMax ≤ n) (hhi : n ≤ integerMax) {l : Option (Option ℤ)} :
    checkLevel (r.codecTable levels) name (.numeric [.finite n]) = .ok l ↔
      l = some (some n) ∧ Zukomp.checkLevel v.vtable n = .ok := by
  have htrunc : truncate (n : ℚ) = n := by
    unfold truncate
    split_ifs
    · exact Int.floor_intCast n
    · exact Int.ceil_intCast n
  have hlo' : (-integerMax : ℚ) ≤ n := by exact_mod_cast hlo
  have hhi' : (n : ℚ) ≤ integerMax := by exact_mod_cast hhi
  have hbad : ¬ ((n : ℚ) ≠ truncate n ∨ (integerMax : ℚ) < n ∨ (n : ℚ) < -integerMax) := by
    rw [htrunc, not_or, not_or, not_not, not_lt, not_lt]
    exact ⟨rfl, hhi', hlo'⟩
  have hna : naInteger < n := lt_of_lt_of_le (by decide) hlo
  have hrange : checkLevelRange (r.codecTable levels) name n = .ok n ↔ _ :=
    checkLevelRange_eq h hv hname hmin hna
  rw [checkLevel, if_neg hbad, asInteger, htrunc, if_neg (by omega)]
  dsimp only
  rw [← hrange]
  cases hres : checkLevelRange (r.codecTable levels) name n with
  | error k => simp [Except.map]
  | ok m =>
    obtain rfl := checkLevelRange_ok hres
    simp [Except.map, eq_comm]

/-- A level that passes the check in R is `NULL`, a name or a whole number. -/
theorem checkLevel_cases {rows : List CodecRow} {name : CString} {x : RValue}
    {l : Option (Option ℤ)} (h : checkLevel rows name x = .ok l) :
    l = none ∨ (∃ level, level ∈ [fastName, defaultName, bestName] ∧
        levelFromName rows name [some level] = .ok l) ∨
      ∃ n : ℤ, -integerMax ≤ n ∧ n ≤ integerMax ∧ x = .numeric [.finite n] := by
  unfold checkLevel at h
  split at h
  · exact .inl (Except.ok.inj h).symm
  · next names =>
    refine .inr (.inl ?_)
    have h' := h
    unfold levelFromName at h'
    split at h'
    · next level =>
      refine ⟨level, ?_, h⟩
      by_contra hnone
      rw [if_pos (by simpa using hnone)] at h'
      cases h'
    · cases h'
  · next q =>
    split_ifs at h with hbad
    simp only [not_or, not_not, not_lt] at hbad
    obtain ⟨hwhole, hhi, hlo⟩ := hbad
    rw [hwhole] at hhi hlo ⊢
    exact .inr (.inr ⟨truncate q, by exact_mod_cast hlo, by exact_mod_cast hhi, rfl⟩)
  · cases h

/-- R's check of a level and the C driver's agree over every registry, for a codec whose lower bound
is not shown as `NA`: a whole number passes the one where it passes the other, and what passes
reaches the C driver as a level that it accepts, if the codec's abstract levels are levels of its
own. The three names always pass. -/
theorem checkLevel_agrees (h : TableRun levels r c) {v : Registrant} (hv : v ∈ r.entries)
    {name : CString} (hname : v.name = some name) :
    (v.vtable.levelMin ≠ naInteger → ∀ n : ℤ, -integerMax ≤ n → n ≤ integerMax →
      (checkLevel (c.codecTable levels r).1 name (.numeric [.finite n]) = .ok (some (some n)) ↔
        Zukomp.checkLevel v.vtable n = .ok)) ∧
    (∀ level ∈ [fastName, defaultName, bestName], ∃ l,
      checkLevel (c.codecTable levels r).1 name (.character [some level]) = .ok l) ∧
    (v.vtable.levelMin ≠ naInteger → Advertised levels v →
      ∀ x l, checkLevel (c.codecTable levels r).1 name x = .ok l →
        ∃ n, levelFromSexp l = some n ∧ Zukomp.checkLevel v.vtable n = .ok) := by
  obtain ⟨hrows, -⟩ := h.holds.codecTable
  have hsound := h.holds.sound
  rw [hrows]
  refine ⟨fun hmin n hlo hhi => ?_, fun level hlevel => ?_, fun hmin hadv x l hx => ?_⟩
  · rw [checkLevel_whole hsound hv hname hmin hlo hhi]
    exact and_iff_right rfl
  · exact ⟨_, levelFromName_eq hsound hv hname hlevel⟩
  · have hdefault : Zukomp.checkLevel v.vtable levelDefault = .ok := by simp [Zukomp.checkLevel]
    rcases checkLevel_cases hx with rfl | ⟨level, hlevel, hl⟩ | ⟨n, hlo, hhi, rfl⟩
    · exact ⟨levelDefault, rfl, hdefault⟩
    · rw [levelFromName_eq hsound hv hname hlevel] at hl
      obtain rfl := (Except.ok.inj hl).symm
      by_cases hnull : v.hasLevels = false ∨ v.vtable.levelMin = naInteger ∨ level = defaultName
      · rw [if_pos hnull]
        exact ⟨levelDefault, rfl, hdefault⟩
      · rw [if_neg hnull]
        rw [not_or, Bool.not_eq_false] at hnull
        obtain ⟨hfast, hbest⟩ := hadv hnull.1
        split_ifs
        · exact ⟨_, integerColumn_eq hfast.1, hfast.2⟩
        · exact ⟨_, integerColumn_eq hbest.1, hbest.2⟩
    · obtain ⟨rfl, hok⟩ := (checkLevel_whole hsound hv hname hmin hlo hhi).mp hx
      exact ⟨n, rfl, hok⟩

theorem TableRun.registerAll (h : TableRun levels r c) (calls : List (Option Registrant)) :
    TableRun levels (r.registerAll calls).2 c := by
  induction calls generalizing r with
  | nil => exact h
  | cons call calls ih => exact ih (h.register call)

/-- The last level of gzip. -/
theorem checkLevel_agrees_gzip :
    let r := Libraries.ref.registerBuiltins.2
    checkLevel (TableCache.codecTable builtinLevels ⟨none, none⟩ r).1 (Builtin.name .gzip)
      (.numeric [.finite (9 : ℤ)]) = .ok (some (some 9)) := by
  intro r
  have h : TableRun builtinLevels r ⟨none, none⟩ := TableRun.load.registerAll _
  have hloaded : Libraries.ref.Loaded r := ⟨[], rfl⟩
  exact ((checkLevel_agrees h (hloaded.mem .gzip) rfl).1 (by decide) 9 (by decide)
    (by decide)).mpr rfl

end Package

end Zukomp
