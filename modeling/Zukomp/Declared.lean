import Zukomp.Builtins
import Zukomp.Core.Layout

/-! # Options are read as far as they are declared

Two structs that agree on the bytes they declare make and reset the same handles. A field that is
not all there stands for its default, and a reset that is refused for its options changes nothing.
-/

namespace Zukomp

open Library

variable {v : CodecVtable}

/-! ## An expected size that is not announced -/

/-- A codec that uses none of an expected size. -/
def Unannounced.ofUnused
    (hnew : ∀ {o o'}, DecoderOpts.Alike o o' → v.decoderNew o' = v.decoderNew o)
    (hreset : ∀ {f s o o'}, v.decoderReset = some f → DecoderOpts.Alike o o' → f s o' = f s o) :
    Unannounced v where
  Same := Eq
  refl _ := rfl
  new_error h herr := (hnew h).trans herr
  new_ok {o o' s} h hok := ⟨s, (hnew h).trans hok, rfl⟩
  process {s s'} buf mode h := h ▸ ⟨rfl, rfl, rfl⟩
  reset {f s s' o o'} hf h ho := by
    subst h
    rw [hreset hf ho]
    exact ⟨rfl, rfl⟩

/-- lz4-block keeps an expected size, and looks at it only where it was announced. -/
theorem lz4bDecoder_unannounced (Z : Lz4) {s : Lz4bState} (hexp : s.hasExpected = false)
    (x : UInt64) (w : Window) (mode : Flush) :
    lz4bDecoderProcess Z { s with expected := x } w mode =
      ((lz4bDecoderProcess Z s w mode).1,
        { (lz4bDecoderProcess Z s w mode).2.1 with expected := x },
        (lz4bDecoderProcess Z s w mode).2.2) := by
  have hgather : lz4bGather { s with expected := x } w =
      ((lz4bGather s w).1, { (lz4bGather s w).2.1 with expected := x }, (lz4bGather s w).2.2) := by
    unfold lz4bGather
    dsimp only
    by_cases hnil : w.input = []
    · rw [if_pos hnil, if_pos hnil]
    rw [if_neg hnil, if_neg hnil]
    cases sizeAdd s.input.length w.input.length with
    | error st => rfl
    | ok need =>
      dsimp only
      split_ifs <;> rfl
  unfold lz4bDecoderProcess lz4bHold
  dsimp only
  rw [hgather]
  by_cases hdone : s.done = true
  · rw [if_pos hdone, if_pos hdone]
    rfl
  rw [if_neg hdone, if_neg hdone]
  rcases lz4bGather s w with ⟨st, t, u⟩
  by_cases hmode : mode ≠ .finish
  · rw [if_pos hmode, if_pos hmode]
    cases st <;> rfl
  have hnot : ¬ s.hasExpected = true := by simp [hexp]
  rw [if_neg hmode, if_neg hmode, if_neg hnot, if_neg hnot]
  cases st with
  | ok =>
    dsimp only
    by_cases hempty : t.input = []
    · rw [if_pos hempty, if_pos hempty]
    rw [if_neg hempty, if_neg hempty]
    have hsearch : lz4bSearch Z { t with expected := x } = lz4bSearch Z t := rfl
    rw [hsearch]
    cases lz4bSearch Z t <;> rfl
  | _ => rfl

def lz4BlockUnannounced (Z : Lz4) : Unannounced (lz4BlockCodec Z) where
  Same (s s' : Lz4bState) := s' = { s with expected := s'.expected } ∧
    (s.hasExpected = true → s'.expected = s.expected)
  refl _ := ⟨rfl, fun _ => rfl⟩
  new_error _ h := by cases h
  new_ok {o o' s} h hok := by
    cases hok
    refine ⟨_, rfl, ?_, fun hexp => h.announced hexp⟩
    rw [h.same]
    rfl
  process := by
    rintro (s : Lz4bState) (s' : Lz4bState) buf mode ⟨hsame, hann⟩
    by_cases hexp : s.hasExpected = true
    · rw [hann hexp] at hsame
      subst hsame
      exact ⟨rfl, rfl, rfl, fun _ => rfl⟩
    · have hcall := lz4bDecoder_unannounced Z (Bool.eq_false_iff.mpr hexp) s'.expected buf.window mode
      rw [← hsame] at hcall
      have hkept : (lz4bDecoderProcess Z s buf.window mode).2.1.hasExpected = s.hasExpected :=
        congrArg Lz4bSettings.hasExpected (lz4bDecoder_settings s buf.window mode)
      have hstate : (onBuffer (lz4bDecoderProcess Z) s' buf mode).2.1 =
          { (onBuffer (lz4bDecoderProcess Z) s buf mode).2.1 with expected := s'.expected } := by
        unfold onBuffer
        rw [hcall]
      have hrest : (onBuffer (lz4bDecoderProcess Z) s buf mode).1 =
            (onBuffer (lz4bDecoderProcess Z) s' buf mode).1 ∧
          (onBuffer (lz4bDecoderProcess Z) s buf mode).2.2 =
            (onBuffer (lz4bDecoderProcess Z) s' buf mode).2.2 := by
        unfold onBuffer
        rw [hcall]
        exact ⟨rfl, rfl⟩
      refine ⟨hrest.1, hrest.2, ?_, fun hkeep => absurd (hkept.symm.trans hkeep) hexp⟩
      change (onBuffer (lz4bDecoderProcess Z) s' buf mode).2.1 =
        { (onBuffer (lz4bDecoderProcess Z) s buf mode).2.1 with
          expected := (onBuffer (lz4bDecoderProcess Z) s' buf mode).2.1.expected }
      rw [hstate]
  reset := by
    rintro f (s : Lz4bState) (s' : Lz4bState) o o' hf ⟨hsame, -⟩ ho
    cases hf
    refine ⟨rfl, ?_, fun hexp => ho.announced hexp⟩
    rw [hsame, ho.same]
    rfl

theorem Libraries.codecs_unannounced {K : Libraries} (hv : v ∈ K.codecs) :
    Nonempty (Unannounced v) := by
  simp only [codecs, List.mem_cons, List.not_mem_nil, or_false] at hv
  obtain rfl | rfl | rfl | rfl | rfl | rfl | rfl := hv
  · exact ⟨.ofUnused (fun _ => rfl) fun hf _ => by cases hf; rfl⟩
  · exact ⟨.ofUnused (fun h => by rw [h.same]; rfl) fun hf h => by cases hf; rw [h.same]⟩
  · exact ⟨.ofUnused (fun h => by rw [h.same]; rfl) fun hf h => by cases hf; rw [h.same]⟩
  · exact ⟨.ofUnused (fun h => by rw [h.same]; rfl) fun hf h => by cases hf; rw [h.same]⟩
  · exact ⟨.ofUnused (fun h => by rw [h.same]; rfl) fun hf h => by cases hf; rw [h.same]; rfl⟩
  · exact ⟨.ofUnused (fun h => by rw [h.same]; rfl) fun hf h => by cases hf; rw [h.same]; rfl⟩
  · exact ⟨lz4BlockUnannounced K.lz4⟩

/-! ## Refusals of the codecs -/

/-- The engines take every level in the range that their codec advertises. -/
structure Libraries.Accepts (K : Libraries) : Prop where
  init : ∀ level, 0 ≤ level → level ≤ 9 → (K.miniz.deflate.init level).1 ≠ .paramError
  setLevel : ∀ z level, -131072 ≤ level → level ≤ 22 → K.zstd.setLevel z level ≠ none

theorem fromMz_invalid {st : MzStatus} (h : fromMz st = .errInvalidArgument) :
    st = .paramError := by
  cases st <;> first | rfl | cases h

theorem encoderReset_unchanged (e : Encoder v) (o : Option EncoderOpts)
    (hcodec : ∀ reset s use, v.encoderReset = some reset → checkLevel v (EncoderOpts.level use) = .ok →
      (reset s use).1 ≠ .errInvalidArgument)
    (h : (encoderReset e o).1 = .errInvalidArgument) : (encoderReset e o).2 = e := by
  unfold encoderReset at h ⊢
  dsimp only at h ⊢
  split_ifs at h ⊢ with hsize hother hlevel
  · rfl
  · rfl
  · rfl
  · rcases hreset : v.encoderReset with _ | reset
    · rfl
    · rw [hreset] at h
      have hne := hcodec reset e.state (copyEncoderOpts (o.getD e.opts)) hreset (not_not.mp hlevel)
      dsimp only at h
      rcases hr : reset e.state (copyEncoderOpts (o.getD e.opts)) with ⟨st, s⟩
      rw [hr] at h hne
      cases st <;> first | exact absurd rfl hne | cases h

theorem decoderReset_unchanged (d : Decoder v) (o : Option DecoderOpts)
    (hcodec : ∀ reset s use, v.decoderReset = some reset →
      (reset s use).1 ≠ .errInvalidArgument)
    (h : (decoderReset d o).1 = .errInvalidArgument) : (decoderReset d o).2 = d := by
  unfold decoderReset at h ⊢
  dsimp only at h ⊢
  split_ifs at h ⊢ with hcheck hother
  · rfl
  · rfl
  · rcases hreset : v.decoderReset with _ | reset
    · rfl
    · rw [hreset] at h
      have hne := hcodec reset d.state (copyDecoderOpts (o.getD d.opts)) hreset
      dsimp only at h
      rcases hr : reset d.state (copyDecoderOpts (o.getD d.opts)) with ⟨st, s⟩
      rw [hr] at h hne
      cases st <;> first | exact absurd rfl hne | cases h

/-- A reset of the DEFLATE family answers an argument error for a level that miniz refuses only. -/
theorem deflateReset_valid {E : MzStream} (s : DeflateState E) {level : ℤ}
    (hinit : level ≠ levelDefault → (E.init level).1 ≠ .paramError) :
    (deflateReset s level).1 ≠ .errInvalidArgument := by
  intro h
  unfold deflateReset at h
  dsimp only at h
  set want := if s.encoder = true ∧ level ≠ levelDefault then level else s.level with hwant
  have hstatus : (if s.encoder = true ∧ want ≠ s.level then E.init want else E.reset s.mz).1 ≠
      .paramError := by
    by_cases hchange : s.encoder = true ∧ want ≠ s.level
    · rw [if_pos hchange]
      have hask : s.encoder = true ∧ level ≠ levelDefault := by
        by_contra hno
        exact hchange.2 (hwant.trans (if_neg hno))
      rw [hwant, if_pos hask]
      exact hinit hask.2
    · rw [if_neg hchange]
      rcases E.reset_status s.mz with hok | herr
      · simp [hok]
      · simp [herr]
  rcases hr : (if s.encoder = true ∧ want ≠ s.level then E.init want else E.reset s.mz) with ⟨st, mz⟩
  rw [hr] at h hstatus
  cases st with
  | ok => cases h
  | _ => exact hstatus (fromMz_invalid h)

theorem zstdEncoderReset_valid {Z : Zstd} (s : ZstdEncoder Z) {use : EncoderOpts}
    (hset : ∀ z, use.level ≠ levelDefault → Z.setLevel z use.level ≠ none) :
    (zstdEncoderReset s use).1 ≠ .errInvalidArgument := by
  unfold zstdEncoderReset
  cases Z.resetCCtx s.cctx with
  | none => simp
  | some z =>
    dsimp only
    by_cases hchange : use.level ≠ levelDefault ∧ use.level ≠ s.level
    · rw [if_pos hchange, zstdLevel]
      dsimp only
      rw [if_neg hchange.1]
      cases hlevel : Z.setLevel z use.level with
      | none => exact absurd hlevel (hset z hchange.1)
      | some z' => simp
    · rw [if_neg hchange]
      simp

theorem zstdDecoderReset_valid {Z : Zstd} (s : ZstdDecoder Z) (use : DecoderOpts) :
    (zstdDecoderReset s use).1 ≠ .errInvalidArgument := by
  unfold zstdDecoderReset zstdWindow
  cases Z.resetDCtx s.dctx with
  | none => simp
  | some z =>
    dsimp only
    cases Z.setWindowLogMax z (zstdWindowLog use.maxOutput) <;> simp

variable {K : Libraries}

/-- A built-in encoder's reset that answers an argument error leaves the handle as it was. -/
theorem Libraries.encoderReset_invalid (hK : K.Accepts) (hv : v ∈ K.codecs) (e : Encoder v)
    (o : Option EncoderOpts) (h : (encoderReset e o).1 = .errInvalidArgument) :
    (encoderReset e o).2 = e := by
  refine encoderReset_unchanged e o ?_ h
  simp only [codecs, List.mem_cons, List.not_mem_nil, or_false] at hv
  have hdeflate (codec : CodecId) (wrap : WrapKind) (s : DeflateState K.miniz.deflate)
      (use : EncoderOpts) (hlevel : checkLevel (deflateVtable K.miniz codec wrap) use.level = .ok) :
      (deflateReset s use.level).1 ≠ .errInvalidArgument := by
    refine deflateReset_valid s fun hne => ?_
    obtain ⟨hmin, hmax⟩ := checkLevel_range hlevel (by simp [deflateVtable]) hne
    exact hK.init use.level hmin hmax
  obtain rfl | rfl | rfl | rfl | rfl | rfl | rfl := hv <;> intro reset s use hreset hlevel <;>
    cases hreset
  · simp
  · exact hdeflate _ _ s use hlevel
  · exact hdeflate _ _ s use hlevel
  · exact hdeflate _ _ s use hlevel
  · exact zstdEncoderReset_valid s fun z hne => by
      obtain ⟨hmin, hmax⟩ := checkLevel_range hlevel (by simp [zstdCodec]) hne
      exact hK.setLevel z use.level hmin hmax
  · simp [lz4fEncoderReset]
  · simp [lz4bEncoderReset]

theorem Libraries.decoderReset_invalid (hv : v ∈ K.codecs) (d : Decoder v)
    (o : Option DecoderOpts) (h : (decoderReset d o).1 = .errInvalidArgument) :
    (decoderReset d o).2 = d := by
  refine decoderReset_unchanged d o ?_ h
  simp only [codecs, List.mem_cons, List.not_mem_nil, or_false] at hv
  obtain rfl | rfl | rfl | rfl | rfl | rfl | rfl := hv <;> intro reset s use hreset <;>
    cases hreset
  · simp
  · exact deflateReset_valid _ (absurd rfl)
  · exact deflateReset_valid _ (absurd rfl)
  · exact deflateReset_valid _ (absurd rfl)
  · exact zstdDecoderReset_valid s use
  · simp [lz4fDecoderReset]
  · simp [lz4bDecoderReset]

/-! ## Options structs -/

/-- Structs that agree on what they declare lead to the same handles. -/
structure ReadsDeclared (lookup : CodecId → Option CodecVtable) : Prop where
  encoderNew : ∀ {m m' : Memory}, encoderOptsSize ≤ m.structSize → m.Agree encoderOptsSize m' →
    encoderNewAt lookup m = encoderNewAt lookup m'
  encoderReset : ∀ {v : CodecVtable} (e : Encoder v) {m m' : Memory},
    encoderOptsSize ≤ m.structSize → m.Agree encoderOptsSize m' →
      encoderResetAt e m = encoderResetAt e m'
  decoderNew : ∀ {m m' : Memory}, decoderOptsRequiredSize ≤ m.structSize →
    m.Agree decoderOptsSize m' → decoderNewAt lookup m = decoderNewAt lookup m'
  decoderReset : ∀ {v : CodecVtable} (d : Decoder v) {m m' : Memory},
    decoderOptsRequiredSize ≤ m.structSize → m.Agree decoderOptsSize m' →
      decoderResetAt d m = decoderResetAt d m'

/-- A short decoder struct of a built-in codec leads to handles that no run tells from those of
the struct with the default in place of the field that it does not cover. -/
structure TakesDefaults (K : Libraries) (lookup : CodecId → Option CodecVtable) (m : Memory) :
    Prop where
  error : ∀ st, decoderNewAt lookup m = .error st → decoderNewAt lookup m.defaulted = .error st
  made : ∀ {v : CodecVtable} {d : Decoder v}, decoderNewAt lookup m = .ok ⟨v, d⟩ →
    ∃ d', decoderNewAt lookup m.defaulted = .ok ⟨v, d'⟩ ∧
      ∀ ops, answers decoderOpAnswer d ops = answers decoderOpAnswer d' ops
  status : ∀ {v : CodecVtable} (_ : v ∈ K.codecs) (d : Decoder v),
    (decoderResetAt d m).1 = (decoderResetAt d m.defaulted).1
  reset : ∀ {v : CodecVtable} (_ : v ∈ K.codecs) (d : Decoder v) (ops : List DecoderOp),
    answers decoderOpAnswer (decoderResetAt d m).2 ops =
      answers decoderOpAnswer (decoderResetAt d m.defaulted).2 ops

theorem takesDefaults {lookup : CodecId → Option CodecVtable}
    (hlookup : ∀ codec v, lookup codec = some v → v ∈ K.codecs) {m : Memory}
    (hshort : m.structSize < decoderOptsSize) : TakesDefaults K lookup m := by
  have hcheck' : checkDecOptsAt m.defaulted = checkDecOptsAt m := by
    unfold checkDecOptsAt Memory.structSize
    rw [Memory.u32_defaulted (by omega), Memory.u32_defaulted (by omega)]
  by_cases hcheck : checkDecOptsAt m = .ok
  · have halike := Memory.alike_defaulted hcheck hshort
    obtain ⟨herror, hmade⟩ := Unannounced.handles_new lookup halike
      fun h => Libraries.codecs_unannounced (hlookup _ _ h)
    have hreset {v : CodecVtable} (hv : v ∈ K.codecs) (d : Decoder v) :
        ∃ k : Unannounced v, (decoderResetAt d m).1 = (decoderResetAt d m.defaulted).1 ∧
          k.Handles (decoderResetAt d m).2 (decoderResetAt d m.defaulted).2 := by
      obtain ⟨k⟩ := Libraries.codecs_unannounced hv
      rw [decoderResetAt_eq, decoderResetAt_eq]
      have hself : k.Handles d d := ⟨k.refl _, .refl _, rfl, rfl, rfl⟩
      have hlike : ((some (DecoderOpts.read m)).getD d.opts).Alike
          ((some (DecoderOpts.read m.defaulted)).getD d.opts) := halike
      exact ⟨k, hself.reset hlike⟩
    refine ⟨?_, ?_, fun hv d => ?_, fun hv d ops => ?_⟩
    · rw [decoderNewAt_eq, decoderNewAt_eq]
      exact herror
    · rw [decoderNewAt_eq, decoderNewAt_eq]
      intro v d hnew
      obtain ⟨k, d', hnew', hsame⟩ := hmade hnew
      exact ⟨d', hnew', hsame.answers⟩
    · obtain ⟨k, hst, -⟩ := hreset hv d
      exact hst
    · obtain ⟨k, -, hsame⟩ := hreset hv d
      exact hsame.answers ops
  · have hnew (m : Memory) (h : checkDecOptsAt m ≠ .ok) :
        decoderNewAt lookup m = .error .errInvalidArgument := if_pos h
    have hreset {v : CodecVtable} (d : Decoder v) (m : Memory) (h : checkDecOptsAt m ≠ .ok) :
        decoderResetAt d m = (.errInvalidArgument, d) := if_pos h
    have hbad := hcheck'.trans_ne hcheck
    refine ⟨?_, ?_, fun _ d => ?_, fun _ d ops => ?_⟩
    · rw [hnew m hcheck, hnew _ hbad]
      exact fun _ h => h
    · rw [hnew m hcheck]
      nofun
    · rw [hreset d m hcheck, hreset d _ hbad]
    · rw [hreset d m hcheck, hreset d _ hbad]

/-- A reset that is refused for its options leaves the handle as it was. -/
structure RefusesWhole (K : Libraries) : Prop where
  encoder : ∀ {v : CodecVtable} (e : Encoder v) (m : Memory),
    ¬ EncoderOpts.Passes e (EncoderOpts.read m) → encoderResetAt e m = (.errInvalidArgument, e)
  decoder : ∀ {v : CodecVtable} (d : Decoder v) (m : Memory),
    ¬ DecoderOpts.Passes d (DecoderOpts.read m) → decoderResetAt d m = (.errInvalidArgument, d)
  encoderCodec : ∀ {v : CodecVtable} (_ : v ∈ K.codecs) (e : Encoder v) (o : Option EncoderOpts),
    (Zukomp.encoderReset e o).1 = .errInvalidArgument → (Zukomp.encoderReset e o).2 = e
  decoderCodec : ∀ {v : CodecVtable} (_ : v ∈ K.codecs) (d : Decoder v) (o : Option DecoderOpts),
    (Zukomp.decoderReset d o).1 = .errInvalidArgument → (Zukomp.decoderReset d o).2 = d

/-- Options structs are read as far as they declare; an expected size that is announced and not
covered is refused; a reset that is refused for its options changes nothing. -/
theorem options_declared (hK : K.Accepts) (lookup : CodecId → Option CodecVtable) :
    ReadsDeclared lookup ∧
    ((∀ codec v, lookup codec = some v → v ∈ K.codecs) → ∀ m : Memory,
      m.structSize < decoderOptsSize → TakesDefaults K lookup m) ∧
    (∀ m : Memory, m.u32 20 &&& decExpectedSize ≠ 0 → m.structSize < decoderOptsSize →
      decoderNewAt lookup m = .error .errInvalidArgument ∧
        ∀ {v : CodecVtable} (d : Decoder v), decoderResetAt d m = (.errInvalidArgument, d)) ∧
    RefusesWhole K := by
  refine ⟨⟨encoderNewAt_agree, fun e _ _ => encoderResetAt_agree e, decoderNewAt_agree,
      fun d _ _ => decoderResetAt_agree d⟩,
    fun hlookup m hshort => takesDefaults hlookup hshort,
    fun m hflag hsize => expected_refused hflag hsize,
    ⟨fun e m h => ?_, fun d m h => ?_, fun hv e o h => Libraries.encoderReset_invalid hK hv e o h,
      fun hv d o h => Libraries.decoderReset_invalid hv d o h⟩⟩
  · rw [encoderResetAt_eq]
    exact encoderReset_refused e h
  · rw [decoderResetAt_eq]
    exact decoderReset_refused d h

theorem Libraries.ref_accepts : ref.Accepts where
  init _ _ _ := by simp [ref, refMiniz, refInflate]
  setLevel _ _ _ _ := by simp [ref, refZstd]

def shortStruct (after : UInt8) : Memory := fun i =>
  if i = 0 then 24 else if i = 4 then 1 else if i < 24 then 0 else after

/-- What comes after the struct does not matter. -/
theorem options_declared_short :
    decoderNewAt identityOnly (shortStruct 0) = decoderNewAt identityOnly (shortStruct 255) :=
  (options_declared Libraries.ref_accepts identityOnly).1.decoderNew (by decide)
    fun i hi => by
      have hlt : i < 24 := hi.trans_le (min_le_left _ _)
      simp [shortStruct, hlt]

end Zukomp
