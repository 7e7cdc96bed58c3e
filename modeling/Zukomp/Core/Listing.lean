import Zukomp.Core.Registry

/-! # The codec listing, zukomp_r.c

The table that `komp_codecs()` shows: the declared codecs in their order, and then the registered
ones that are not declared. One pass counts the rows and another fills them.
-/

namespace Zukomp

/-! ## What a vtable answers -/

/-- `level_fast` and `level_best` of a vtable, which registration does not read. -/
structure AbstractLevels where
  fast : ℤ
  best : ℤ

/-- The end of `level_best` in `zu_codec_vtable`. -/
def vtableLevelsSize : UInt32 := 160

def AbstractLevels.absent (a : AbstractLevels) (v : Registrant) : Bool :=
  v.structSize < vtableLevelsSize ∨ (a.fast = 0 ∧ a.best = 0)

/-- `zu_int_vtable_level_fast`, `zu_int_vtable_level_best` -/
def AbstractLevels.levelFast (a : AbstractLevels) (v : Registrant) : ℤ :=
  if a.absent v then v.vtable.levelDefault else a.fast

def AbstractLevels.levelBest (a : AbstractLevels) (v : Registrant) : ℤ :=
  if a.absent v then v.vtable.levelDefault else a.best

def Registrant.detectable (v : Registrant) : Bool := v.magic.isSome || v.sniff.isSome

/-- All three zero is a codec without levels. -/
def Registrant.hasLevels (v : Registrant) : Bool :=
  ¬ (v.vtable.levelMin = 0 ∧ v.vtable.levelMax = 0 ∧ v.vtable.levelDefault = 0)

/-- `zu_codec_info`; the last two are written only where the caller's struct has them. -/
structure CodecInfo where
  codec : CodecId
  name : Option CString
  contentEncoding : Option CString
  source : Option CString
  levelMin : ℤ
  levelMax : ℤ
  levelDefault : ℤ
  flags : UInt32
  detectable : Bool
  levelFast : Option ℤ
  levelBest : Option ℤ

/-- The ends of `detectable` and of `level_best` in `zu_codec_info`. -/
def infoRequiredSize : UInt32 := 52
def infoLevelsSize : UInt32 := 60

def naInteger : ℤ := -2147483648

/-- An element of an integer column of R, `NA` as `none`. -/
def integerColumn (n : ℤ) : Option ℤ := if n = naInteger then none else some n

/-- A row of the table, `NA` as `none`. A name that would be read through NULL is `none`. -/
structure CodecRow where
  id : Option CString
  available : Bool
  canEncode : Option Bool
  canDecode : Option Bool
  levelMin : Option ℤ
  levelMax : Option ℤ
  levelDefault : Option ℤ
  levelFast : Option ℤ
  levelBest : Option ℤ
  detect : Option Bool
  canFlush : Option Bool
  contentEncoding : Option CString
  source : Option CString

/-- What a row is about: its declaration and its vtable, where it has them. -/
structure RowSource where
  decl : Option Declared
  vtable : Option Registrant

variable (levels : Registrant → AbstractLevels)

/-- The row of a registered codec. -/
def availableRow (v : Registrant) : CodecRow where
  id := v.name
  available := true
  canEncode := some (v.vtable.can canEncode)
  canDecode := some (v.vtable.can canDecode)
  levelMin := if v.hasLevels then integerColumn v.vtable.levelMin else none
  levelMax := if v.hasLevels then integerColumn v.vtable.levelMax else none
  levelDefault := if v.hasLevels then integerColumn v.vtable.levelDefault else none
  levelFast := if v.hasLevels then integerColumn ((levels v).levelFast v) else none
  levelBest := if v.hasLevels then integerColumn ((levels v).levelBest v) else none
  detect := some v.detectable
  canFlush := some (v.vtable.can canFlush)
  contentEncoding := v.contentEncoding
  source := v.source

/-- The row of a declared codec that is not registered: what it can do is not known. -/
def unavailableRow (d : Option Declared) : CodecRow where
  id := d.map Declared.name
  available := false
  canEncode := none
  canDecode := none
  levelMin := none
  levelMax := none
  levelDefault := none
  levelFast := none
  levelBest := none
  detect := none
  canFlush := none
  contentEncoding := d.bind Declared.contentEncoding
  source := none

def RowSource.row (s : RowSource) : CodecRow :=
  match s.vtable with
  | some v => availableRow levels v
  | none => unavailableRow s.decl

namespace Registry

/-- `zu_codec_get_info` into a struct of `size` bytes -/
def codecGetInfo (r : Registry) (codec : CodecId) (size : UInt32) : Except Status CodecInfo :=
  if size < infoRequiredSize then .error .errInvalidArgument
  else match r.lookup codec with
    | none => .error .errUnsupported
    | some v => .ok {
        codec := v.codec, name := v.name, contentEncoding := v.contentEncoding, source := v.source
        levelMin := v.vtable.levelMin, levelMax := v.vtable.levelMax
        levelDefault := v.vtable.levelDefault, flags := v.vtable.flags, detectable := v.detectable
        levelFast := if infoLevelsSize ≤ size then some ((levels v).levelFast v) else none
        levelBest := if infoLevelsSize ≤ size then some ((levels v).levelBest v) else none }

/-- The counting pass: the registered codecs that are not declared. -/
def extraCount (r : Registry) : ℕ := r.entries.countP fun v => (declaredFor v.codec).isNone

def rowCount (r : Registry) : ℕ := declared.length + r.extraCount

/-- The walk for the undeclared codec number `want`, `seen` of them passed. -/
def pickExtra (want : ℕ) : ℕ → List Registrant → Option Registrant
  | _, [] => none
  | seen, v :: rest =>
    if (declaredFor v.codec).isSome then pickExtra want seen rest
    else if seen = want then some v
    else pickExtra want (seen + 1) rest

def rowSource (r : Registry) (i : ℕ) : RowSource :=
  if i < declared.length then
    match declared[i]? with
    | some d => ⟨some d, r.lookup d.codec⟩
    | none => ⟨none, none⟩
  else ⟨none, pickExtra (i - declared.length) 0 r.entries⟩

def codecTable (r : Registry) : List CodecRow :=
  (List.range r.rowCount).map fun i => (r.rowSource i).row levels

/-! ## The two passes agree -/

def extras (r : Registry) : List Registrant :=
  r.entries.filter fun v => (declaredFor v.codec).isNone

def sources (r : Registry) : List RowSource :=
  declared.map (fun d => ⟨some d, r.lookup d.codec⟩) ++ r.extras.map fun v => ⟨none, some v⟩

/-- The walk finds the undeclared codecs in their order. -/
theorem pickExtra_eq (entries : List Registrant) {want seen : ℕ} (h : seen ≤ want) :
    pickExtra want seen entries =
      (entries.filter fun v => (declaredFor v.codec).isNone)[want - seen]? := by
  induction entries generalizing seen with
  | nil => simp [pickExtra]
  | cons v rest ih =>
    rw [pickExtra]
    by_cases hdecl : (declaredFor v.codec).isSome = true
    · rw [if_pos hdecl, ih h, List.filter_cons_of_neg (by simp [Option.isSome_iff_ne_none.mp hdecl])]
    · rw [if_neg hdecl, List.filter_cons_of_pos (by simpa using hdecl)]
      by_cases heq : seen = want
      · rw [if_pos heq, heq, Nat.sub_self]
        rfl
      · rw [if_neg heq, ih (by omega), show want - seen = want - (seen + 1) + 1 by omega]
        rfl

theorem sources_length (r : Registry) : r.sources.length = r.rowCount := by
  simp [sources, rowCount, extraCount, extras, List.countP_eq_length_filter]

/-- The filling pass selects for each row that was counted what it is to be about. -/
theorem sources_getElem (r : Registry) (i : ℕ) (hi : i < r.rowCount) :
    r.sources[i]? = some (r.rowSource i) := by
  unfold rowSource sources
  by_cases hdecl : i < declared.length
  · rw [if_pos hdecl, List.getElem?_append_left (by simpa using hdecl), List.getElem?_map,
      List.getElem?_eq_getElem hdecl]
    rfl
  · rw [if_neg hdecl, List.getElem?_append_right (by simpa using hdecl), List.length_map,
      pickExtra_eq r.entries (Nat.zero_le _), Nat.sub_zero, List.getElem?_map]
    have hextra : i - declared.length < r.extras.length := by
      rw [← r.sources_length, sources, List.length_append, List.length_map, List.length_map] at hi
      omega
    change (r.extras[i - declared.length]?).map (fun v => (⟨none, some v⟩ : RowSource)) =
      some ⟨none, r.extras[i - declared.length]?⟩
    rw [List.getElem?_eq_getElem hextra]
    rfl

theorem codecTable_eq (r : Registry) :
    r.codecTable levels = r.sources.map (RowSource.row levels) := by
  refine List.ext_getElem? fun i => ?_
  unfold codecTable
  by_cases hi : i < r.rowCount
  · rw [List.getElem?_map, List.getElem?_map, r.sources_getElem i hi, List.getElem?_range hi]
    rfl
  · rw [List.getElem?_eq_none (by simpa using hi),
      List.getElem?_eq_none (by simpa [sources_length] using hi)]

/-! ## One row for each codec -/

theorem declaredFor_eq_none {codec : CodecId} :
    declaredFor codec = none ↔ ∀ d ∈ declared, d.codec ≠ codec := by
  simp [declaredFor, List.find?_eq_none]

theorem lookup_codec {r : Registry} {codec : CodecId} {v : Registrant}
    (h : r.lookup codec = some v) : v ∈ r.entries ∧ v.codec = codec := by
  unfold lookup at h
  split_ifs at h
  exact ⟨List.mem_of_find?_eq_some h, by simpa using List.find?_some h⟩

theorem lookup_entry {r : Registry} {v : Registrant} (hv : v ∈ r.entries)
    (hne : v.codec ≠ codecNone) : (r.lookup v.codec).isSome := by
  unfold lookup
  rw [if_neg hne, List.find?_isSome]
  exact ⟨v, hv, by simp⟩

variable {r : Registry}

/-- The codec of a row, by the name it shows. -/
def rowCodec (r : Registry) (row : CodecRow) : CodecId := r.codecLookup row.id

/-- The row of a declared codec shows its name, whether the codec is registered or not. -/
theorem Sound.declared_row (h : r.Sound) {d : Declared} (hd : d ∈ declared) :
    (RowSource.row levels ⟨some d, r.lookup d.codec⟩).id = some d.name ∧
      ((RowSource.row levels ⟨some d, r.lookup d.codec⟩).available = true ↔
        (r.lookup d.codec).isSome) := by
  unfold RowSource.row
  cases hv : r.lookup d.codec with
  | none => exact ⟨rfl, by simp [unavailableRow]⟩
  | some v =>
    obtain ⟨hmem, hcodec⟩ := lookup_codec hv
    exact ⟨(h.identified v hmem).canonical d hd hcodec.symm, by simp [availableRow]⟩

theorem mem_codecTable {row : CodecRow} : row ∈ r.codecTable levels ↔
    (∃ d ∈ declared, row = RowSource.row levels ⟨some d, r.lookup d.codec⟩) ∨
      ∃ v ∈ r.extras, row = availableRow levels v := by
  rw [codecTable_eq, sources]
  simp only [List.map_append, List.map_map, List.mem_append, List.mem_map, Function.comp_apply]
  constructor
  · rintro (⟨d, hd, rfl⟩ | ⟨v, hv, rfl⟩)
    · exact .inl ⟨d, hd, rfl⟩
    · exact .inr ⟨v, hv, rfl⟩
  · rintro (⟨d, hd, rfl⟩ | ⟨v, hv, rfl⟩)
    · exact .inl ⟨d, hd, rfl⟩
    · exact .inr ⟨v, hv, rfl⟩

theorem mem_extras {v : Registrant} :
    v ∈ r.extras ↔ v ∈ r.entries ∧ declaredFor v.codec = none := by
  simp [extras]

theorem Sound.table_names (h : r.Sound) :
    (r.codecTable levels).map CodecRow.id =
      declared.map (fun d => some d.name) ++ r.extras.map Registrant.name := by
  rw [codecTable_eq, sources]
  simp only [List.map_append, List.map_map]
  congr 1
  exact List.map_congr_left fun d hd => (h.declared_row levels hd).1

/-- Each name resolves to the codec that the row is about. -/
theorem Sound.table_codecs (h : r.Sound) :
    (r.codecTable levels).map r.rowCodec =
      declared.map Declared.codec ++ r.extras.map Registrant.codec := by
  have hmap : (r.codecTable levels).map r.rowCodec =
      ((r.codecTable levels).map CodecRow.id).map r.codecLookup := by
    rw [List.map_map]
    rfl
  have hdeclared : declared.map (r.codecLookup ∘ fun d => some d.name) =
      declared.map Declared.codec :=
    List.map_congr_left fun d hd => codecLookup_declared r hd
  have hextras : r.extras.map (r.codecLookup ∘ Registrant.name) =
      r.extras.map Registrant.codec :=
    List.map_congr_left fun v hv => h.codecLookup (mem_extras.mp hv).1
  rw [hmap, h.table_names, List.map_append, List.map_map, List.map_map, hdeclared, hextras]

theorem Sound.codecs_nodup (h : r.Sound) :
    (declared.map Declared.codec ++ r.extras.map Registrant.codec).Nodup := by
  have hapart := h.apart.filter fun v : Registrant => (declaredFor v.codec).isNone
  refine List.nodup_append.mpr ⟨by decide, List.pairwise_map.mpr (hapart.imp fun hv => hv.codec), ?_⟩
  rintro _ hd _ hv rfl
  obtain ⟨d, hd, heq⟩ := List.mem_map.mp hd
  obtain ⟨v, hextra, hcodec⟩ := List.mem_map.mp hv
  exact declaredFor_eq_none.mp (mem_extras.mp hextra).2 d hd (heq.trans hcodec.symm)

theorem Sound.names_nodup (h : r.Sound) :
    (declared.map (fun d => some d.name) ++ r.extras.map Registrant.name).Nodup := by
  have hapart := h.apart.filter fun v : Registrant => (declaredFor v.codec).isNone
  refine List.nodup_append.mpr ⟨by decide, List.pairwise_map.mpr (hapart.imp fun hv => hv.name), ?_⟩
  rintro _ hd _ hv rfl
  obtain ⟨d, hd, heq⟩ := List.mem_map.mp hd
  obtain ⟨v, hextra, hname⟩ := List.mem_map.mp hv
  obtain ⟨hmem, hnone⟩ := mem_extras.mp hextra
  -- a declared name belongs to its declared codec
  have hcodec := (h.identified v hmem).own d hd (.inl (heq.trans hname.symm))
  exact declaredFor_eq_none.mp hnone d hd hcodec

theorem Sound.available_iff (h : r.Sound) {row : CodecRow} (hrow : row ∈ r.codecTable levels) :
    row.id.isSome ∧ (row.available = true ↔ (r.lookup (r.rowCodec row)).isSome) := by
  rcases (mem_codecTable levels).mp hrow with ⟨d, hd, rfl⟩ | ⟨v, hv, rfl⟩
  · obtain ⟨hid, havail⟩ := h.declared_row levels hd
    rw [rowCodec, hid, codecLookup_declared r hd]
    exact ⟨rfl, havail⟩
  · obtain ⟨hmem, -⟩ := mem_extras.mp hv
    have hid := h.identified v hmem
    have hcodec : r.rowCodec (availableRow levels v) = v.codec := h.codecLookup hmem
    rw [hcodec]
    exact ⟨hid.named, by simp [availableRow, lookup_entry hmem hid.nonzero]⟩

theorem codecGetInfo_ok {codec : CodecId} {size : UInt32} (hsize : infoRequiredSize ≤ size) :
    (∃ info, r.codecGetInfo levels codec size = .ok info) ↔ (r.lookup codec).isSome := by
  unfold codecGetInfo
  rw [if_neg (UInt32.not_lt.mpr hsize)]
  cases r.lookup codec <;> simp

/-- A listing of every codec, once. -/
structure Listing (r : Registry) (rows : List CodecRow) : Prop where
  length : rows.length = r.rowCount
  codecs : (rows.map r.rowCodec).Nodup
  names : (rows.map CodecRow.id).Nodup
  named : ∀ row ∈ rows, row.id.isSome
  declared : ∀ d ∈ declared, (rows.map r.rowCodec).count d.codec = 1
  registered : ∀ v ∈ r.entries, declaredFor v.codec = none →
    (rows.map r.rowCodec).count v.codec = 1
  only : ∀ row ∈ rows, (∃ d ∈ Zukomp.declared, r.rowCodec row = d.codec) ∨
    ∃ v ∈ r.entries, declaredFor v.codec = none ∧ r.rowCodec row = v.codec
  available : ∀ row ∈ rows, row.available = true ↔ (r.lookup (r.rowCodec row)).isSome
  answers : ∀ row ∈ rows, ∀ size, infoRequiredSize ≤ size →
    (row.available = true ↔ ∃ info, r.codecGetInfo levels (r.rowCodec row) size = .ok info)

/-- After any registrations the table has one row for each declared codec and one for each that is
only registered, and no other; its rows are those that were counted, and the available ones are
those that a registered vtable answers for. -/
theorem codecTable_complete (calls : List (Option Registrant)) :
    (empty.registerAll calls).2.Listing levels
      ((empty.registerAll calls).2.codecTable levels) := by
  obtain ⟨h, -⟩ := sound_empty.registerAll calls
  generalize (empty.registerAll calls).2 = r at h ⊢
  have hcodecs := h.table_codecs levels
  have hnodup := h.codecs_nodup
  have hone {codec : CodecId} (hmem : codec ∈ declared.map Declared.codec ++ r.extras.map
      Registrant.codec) : ((r.codecTable levels).map r.rowCodec).count codec = 1 := by
    rw [hcodecs]
    exact List.count_eq_one_of_mem hnodup hmem
  refine ⟨?_, hcodecs ▸ hnodup, h.table_names levels ▸ h.names_nodup,
    fun row hrow => (h.available_iff levels hrow).1, fun d hd => ?_, fun v hv hnone => ?_,
    fun row hrow => ?_, fun row hrow => (h.available_iff levels hrow).2, fun row hrow size hsize => ?_⟩
  · rw [codecTable_eq, List.length_map, sources_length]
  · exact hone (List.mem_append_left _ (List.mem_map_of_mem hd))
  · exact hone (List.mem_append_right _ (List.mem_map_of_mem (mem_extras.mpr ⟨hv, hnone⟩)))
  · have hmem : r.rowCodec row ∈ declared.map Declared.codec ++ r.extras.map Registrant.codec :=
      hcodecs ▸ List.mem_map_of_mem hrow
    rcases List.mem_append.mp hmem with hmem | hmem
    · obtain ⟨d, hd, heq⟩ := List.mem_map.mp hmem
      exact .inl ⟨d, hd, heq.symm⟩
    · obtain ⟨v, hv, heq⟩ := List.mem_map.mp hmem
      obtain ⟨hv, hnone⟩ := mem_extras.mp hv
      exact .inr ⟨v, hv, hnone, heq.symm⟩
  · rw [codecGetInfo_ok levels hsize]
    exact (h.available_iff levels hrow).2

end Registry

end Zukomp
