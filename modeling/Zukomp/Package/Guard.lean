import Zukomp.Core.Budget
import Zukomp.Package.Whole
import Zukomp.Served

/-! # The decompression guards

`max_output` and `max_ratio` hold for what `komp_decompress` returns and for what it has written when
it fails, whatever the codec does within its windows. An argument that is no limit runs nothing.
-/

namespace Zukomp.Package

variable {levels : Registrant → AbstractLevels} {r : Registry} {c : TableCache}

/-- A condition that no C code has run before. -/
structure Condition.Unstarted (k : Condition) : Prop where
  outputBytes : k.outputBytes = none
  nativeStatus : k.nativeStatus = none
  known : k.conditionClass ≠ .internalError

theorem abort_unstarted {k : ConditionClass} {codec : Option CString} (h : k ≠ .internalError) :
    (abort k codec).Unstarted := ⟨rfl, rfl, h⟩

theorem checkRaw_ok {x : RValue} {bytes : List UInt8} (h : checkRaw x = .ok bytes) :
    x = .raw bytes := by
  cases x <;> cases h
  rfl

theorem checkRaw_unstarted {x : RValue} {k : Condition} (h : checkRaw x = .error k) :
    k.Unstarted := by
  cases x <;> cases h <;> exact abort_unstarted (by simp)

theorem checkCodecName_unstarted {rows : List CodecRow} {allowAuto : Bool} {x : RValue}
    {k : Condition} (h : checkCodecName rows allowAuto x = .error k) : k.Unstarted := by
  unfold checkCodecName at h
  split at h
  · split_ifs at h
    · cases h
      exact abort_unstarted (by simp)
    · split at h
      · cases h
        exact abort_unstarted (by simp)
      · split_ifs at h
        cases h
        exact abort_unstarted (by simp)
  · cases h
    exact abort_unstarted (by simp)

theorem detectOrAbort_unstarted {bytes : List UInt8} {k : Condition}
    (h : detectOrAbort levels r bytes = .error k) : k.Unstarted := by
  unfold detectOrAbort at h
  split at h <;> cases h
  exact ⟨rfl, rfl, by simp [abort]⟩

theorem resolveAuto_unstarted {bytes : List UInt8} {name : CString} {k : Condition}
    (h : resolveAuto levels r bytes name = .error k) : k.Unstarted := by
  unfold resolveAuto at h
  split_ifs at h
  exact detectOrAbort_unstarted h

theorem checkLimit_unstarted {upper : ℚ} {codec : Option CString} {x : RValue} {k : Condition}
    (h : checkLimit upper codec x = .error k) : k.Unstarted := by
  unfold checkLimit at h
  split at h
  · cases h
  · split_ifs at h <;> cases h <;> exact abort_unstarted (by simp)
  · cases h
  · cases h
    exact abort_unstarted (by simp)

/-- What `komp_decompress` hands to C: both limits as they were asked for. -/
structure Decompresses (x maxOutput maxRatio : RValue) (a : WholeArgs) : Prop where
  raw : x = .raw a.src
  decodes : a.encode = false
  level : a.level = none
  decFlags : a.decFlags = wholeDecFlags
  output : ∃ m ≤ exactMax, Asks maxOutput m ∧ a.maxOutput = .finite m
  ratio : ∃ ρ : ℕ, ρ ≤ integerMax ∧ Asks maxRatio ρ ∧ a.maxRatio = asInteger (.finite ρ)

theorem decompressArgs_cases (levels : Registrant → AbstractLevels) (r : Registry)
    (rows : List CodecRow) (x codec maxOutput maxRatio : RValue) :
    (∃ k, decompressArgs levels r rows x codec maxOutput maxRatio = .error k ∧ k.Unstarted) ∨
      ∃ a, decompressArgs levels r rows x codec maxOutput maxRatio = .ok a ∧
        Decompresses x maxOutput maxRatio a := by
  unfold decompressArgs
  cases hraw : checkRaw x with
  | error k => exact .inl ⟨k, rfl, checkRaw_unstarted hraw⟩
  | ok src =>
  cases hname : checkCodecName rows true codec with
  | error k => exact .inl ⟨k, by simp [bind, Except.bind], checkCodecName_unstarted hname⟩
  | ok name =>
  cases hauto : resolveAuto levels r src name with
  | error k =>
    exact .inl ⟨k, by simp [bind, Except.bind, hauto], resolveAuto_unstarted hauto⟩
  | ok name' =>
  cases hmax : checkLimit exactMax name' maxOutput with
  | error k =>
    exact .inl ⟨k, by simp [bind, Except.bind, hauto, hmax], checkLimit_unstarted hmax⟩
  | ok m =>
  cases hratio : checkLimit integerMax name' maxRatio with
  | error k =>
    exact .inl ⟨k, by simp [bind, Except.bind, hauto, hmax, hratio], checkLimit_unstarted hratio⟩
  | ok ρ =>
  obtain ⟨m, hm, hmle, rfl⟩ := (checkLimit_eq (Nat.cast_nonneg _)).mp hmax
  obtain ⟨ρ, hρ, hρle, rfl⟩ := (checkLimit_eq (by simp [integerMax])).mp hratio
  refine .inr ⟨_, by simp only [bind, Except.bind, hauto, hmax, hratio]; rfl,
    checkRaw_ok hraw, rfl, rfl, rfl, ⟨m, by exact_mod_cast hmle, hm, rfl⟩,
    ⟨ρ, by exact_mod_cast hρle, hρ, rfl⟩⟩

/-- What a call has delivered: the bytes that it returns, or that its condition counts. -/
def delivered : Except Condition (List UInt8) → ℕ
  | .ok bytes => bytes.length
  | .error k => k.outputBytes.getD 0

theorem delivered_finish_le (result : Status × List UInt8) (codec : CString) (src : List UInt8) :
    delivered (finish result codec src) ≤ result.2.length := by
  unfold finish
  split_ifs
  · unfold abortStatus
    split
    · exact Nat.zero_le _
    · exact le_rfl
  · exact le_rfl

theorem finish_ok {result : Status × List UInt8} {codec : CString} {src bytes : List UInt8}
    (h : finish result codec src = .ok bytes) : result.1.isError = false ∧ result.2 = bytes := by
  unfold finish at h
  split_ifs at h with hst
  · cases h
    refine ⟨?_, rfl⟩
    rcases not_and_or.mp hst with h | h <;> rw [not_not.mp h] <;> rfl

theorem Asks.unique {x : RValue} {m n : ℕ} (h : Asks x m) (h' : Asks x n) : m = n := by
  cases h with
  | null => cases h'; rfl
  | inf => cases h'; rfl
  | number => 
    generalize hx : (RValue.numeric [RNumber.finite (m : ℚ)]) = x at h'
    cases h' with
    | null => cases hx
    | inf => cases hx
    | number =>
      have hq : (m : ℚ) = n := by simpa using hx
      exact_mod_cast hq

/-- The options of a run that decompresses under two limits. -/
def decompressOpts (src : List UInt8) (codec : CodecId) (m ρ : ℕ) : RunOpts where
  src := src
  encode := false
  codec := codec
  level := levelDefault
  maxOutput := UInt64.ofNat m
  maxRatio := UInt32.ofNat ρ
  decFlags := wholeDecFlags
  expectedSize := 0
  inChunk := wholeChunk
  outChunk := wholeChunk
  flushEvery := 0

theorem Decompresses.opts {x maxOutput maxRatio : RValue} {a : WholeArgs}
    (ha : Decompresses x maxOutput maxRatio a) (r : Registry) :
    ∃ m ρ : ℕ, Asks maxOutput m ∧ m ≤ exactMax ∧ Asks maxRatio ρ ∧ ρ ≤ integerMax ∧
      a.opts r = if r.codecLookup a.codec = codecNone then .error .errUnsupported
        else .ok (decompressOpts a.src (r.codecLookup a.codec) m ρ) := by
  obtain ⟨m, hmle, hm, hout⟩ := ha.output
  obtain ⟨ρ, hρle, hρ, hratio⟩ := ha.ratio
  refine ⟨m, ρ, hm, hmle, hρ, hρle, ?_⟩
  unfold WholeArgs.opts
  rw [ha.level, hout, hratio, u64FromReal_natCast hmle, u32FromInt_natCast hρle, ha.decodes,
    ha.decFlags]
  rfl

/-- The sink of a call to C keeps the limits it was given. -/
theorem IntWhole.inBudget (hserves : ∀ e ∈ r.entries, Serves e.vtable.decoderProcess)
    {x maxOutput maxRatio : RValue} {a : WholeArgs} (ha : Decompresses x maxOutput maxRatio a)
    {result : Status × List UInt8} (h : IntWhole r a result) {m ρ : ℕ} (hm : Asks maxOutput m)
    (hρ : Asks maxRatio ρ) :
    (m ≠ 0 → result.2.length ≤ m) ∧ (ρ ≠ 0 → result.2.length ≤ ρ * a.src.length + wholeChunk ∧
      (result.1.isError = false → result.2.length ≤ ρ * a.src.length)) := by
  obtain ⟨m', ρ', hm', hmle, hρ', hρle, hopts⟩ := ha.opts r
  obtain rfl := hm.unique hm'
  obtain rfl := hρ.unique hρ'
  have hnothing {st : Status} (hres : result = (st, [])) :
      (m ≠ 0 → result.2.length ≤ m) ∧ (ρ ≠ 0 → result.2.length ≤ ρ * a.src.length + wholeChunk ∧
        (result.1.isError = false → result.2.length ≤ ρ * a.src.length)) := by
    rw [hres]
    exact ⟨fun _ => Nat.zero_le _, fun _ => ⟨Nat.zero_le _, fun _ => Nat.zero_le _⟩⟩
  unfold IntWhole at h
  rw [hopts] at h
  by_cases hnone : r.codecLookup a.codec = codecNone
  · rw [if_pos hnone] at h
    exact hnothing h
  rw [if_neg hnone] at h
  dsimp only at h
  obtain ⟨out, hrun, hbytes⟩ := h
  unfold RunsWhole at hrun
  rw [if_neg (by simp [decompressOpts, wholeChunk]), if_neg (by simp [decompressOpts])] at hrun
  cases hnew : decoderNew (vtableOf r) (decompressOpts a.src (r.codecLookup a.codec) m ρ).decoderOpts with
  | error st =>
    rw [hnew] at hrun
    cases hrun
    exact hnothing (Prod.ext rfl hbytes)
  | ok d =>
    obtain ⟨v, d⟩ := d
    rw [hnew] at hrun
    dsimp only at hrun
    obtain ⟨-, hin, hout⟩ := decoderNew_fresh hnew
    obtain ⟨hdopts, -⟩ := decoderNew_ok hnew
    have hserve : Serves v.decoderProcess := by
      have hfound := decoderNew_found hnew
      obtain ⟨e, he, hv⟩ := Option.map_eq_some_iff.mp hfound
      have hv : e.vtable = v := hv
      exact hv ▸ hserves e (Registry.lookup_codec he).1
    have hbudget := whole_inBudget hserve hin hout hrun
    have hmax : d.opts.maxOutput.toNat = m := by
      rw [hdopts]
      exact Nat.mod_eq_of_lt (hmle.trans_lt (by decide))
    have hratio : d.opts.maxRatio.toNat = ρ := by
      rw [hdopts]
      exact Nat.mod_eq_of_lt (by rw [integerMax] at hρle; omega)
    rw [hbytes]
    refine ⟨fun hne => ?_, fun hne => ⟨?_, fun hst => ?_⟩⟩
    · have hset : d.opts.maxOutput ≠ 0 := fun h0 => hne (by rw [← hmax, h0]; rfl)
      exact hmax ▸ hbudget.output hset
    · have hset : d.opts.maxRatio ≠ 0 := fun h0 => hne (by rw [← hratio, h0]; rfl)
      exact hratio ▸ hbudget.ratio hset
    · have hset : d.opts.maxRatio ≠ 0 := fun h0 => hne (by rw [← hratio, h0]; rfl)
      exact hratio ▸ hbudget.passed hst hset

/-- Over a registry in any state, whatever its codecs do within the windows they are shown,
`komp_decompress` keeps both limits: what it returns, and what it has written when it fails, is no
more than `max_output`; what it returns is within the ratio, and what it has written is within one
chunk of it. Nothing runs unless both arguments are limits that C can hold. -/
theorem kompDecompress_guarded (hserves : ∀ e ∈ r.entries, Serves e.vtable.decoderProcess)
    {x codec maxOutput maxRatio : RValue} {res : Except Condition (List UInt8)}
    (h : KompDecompresses levels r c x codec maxOutput maxRatio res) :
    (∀ m, Asks maxOutput m → m ≠ 0 → delivered res ≤ m) ∧
    (∀ src ρ, x = .raw src → Asks maxRatio ρ → ρ ≠ 0 →
      delivered res ≤ ρ * src.length + wholeChunk ∧
        ∀ bytes, res = .ok bytes → bytes.length ≤ ρ * src.length) ∧
    ((∀ m, Asks maxOutput m → exactMax < m) ∨ (∀ ρ : ℕ, Asks maxRatio ρ → integerMax < ρ) →
      ∃ k, res = .error k ∧ k.Unstarted) := by
  unfold KompDecompresses Finishes at h
  rcases decompressArgs_cases levels r (c.codecTable levels r).1 x codec maxOutput maxRatio with
    ⟨k, hargs, hk⟩ | ⟨a, hargs, ha⟩
  · rw [hargs] at h
    dsimp only at h
    have hzero : delivered res = 0 := by rw [h, delivered, hk.outputBytes]; rfl
    refine ⟨fun m _ _ => hzero ▸ Nat.zero_le m, fun src ρ _ _ _ => ⟨hzero ▸ Nat.zero_le _, ?_⟩,
      fun _ => ⟨k, h, hk⟩⟩
    rintro bytes hok
    rw [h] at hok
    cases hok
  · rw [hargs] at h
    dsimp only at h
    obtain ⟨result, hwhole, hres⟩ := h
    have hle := delivered_finish_le result a.codec a.src
    rw [← hres] at hle
    obtain ⟨m, hmle, hm, -⟩ := ha.output
    obtain ⟨ρ, hρle, hρ, -⟩ := ha.ratio
    obtain ⟨hmax, hratio⟩ := hwhole.inBudget hserves ha hm hρ
    refine ⟨fun m' hm' hne => ?_, fun src ρ' hsrc hρ' hne => ?_, fun hnone => ?_⟩
    · obtain rfl := hm.unique hm'
      exact hle.trans (hmax hne)
    · obtain rfl := hρ.unique hρ'
      have hraw := ha.raw
      rw [hsrc] at hraw
      cases hraw
      obtain ⟨hfail, hpass⟩ := hratio hne
      refine ⟨hle.trans hfail, fun bytes hok => ?_⟩
      rw [hok] at hres
      obtain ⟨hst, hbytes⟩ := finish_ok hres.symm
      exact hbytes ▸ hpass hst
    · rcases hnone with hnone | hnone
      · exact absurd hmle (not_le.mpr (hnone m hm))
      · exact absurd hρle (not_le.mpr (hnone ρ hρ))

/-- The codecs of this package keep to their windows. -/
theorem builtins_serve {K : Libraries} (hz : K.lz4.Confined) {e : Registrant}
    (he : e ∈ K.registerBuiltins.2.entries) : e.vtable.Serves := by
  rw [(Libraries.registerBuiltins_ok K).2] at he
  obtain ⟨b, -, rfl⟩ := List.mem_map.mp he
  exact Libraries.codecs_serve hz (Libraries.mem_codecs.mpr ⟨b, rfl⟩)

/-- Six bytes where four are allowed. -/
theorem kompDecompress_guarded_identity :
    let res : Except Condition (List UInt8) := .error
      ⟨.outputLimit, some (Builtin.name .identity), some 6, some 4, some .errOutputLimit⟩
    KompDecompresses builtinLevels Libraries.ref.registerBuiltins.2 ⟨none, none⟩
        (.raw [1, 2, 3, 4, 5, 6]) (.character [some (Builtin.name .identity)])
        (.numeric [.finite (4 : ℕ)]) .null res ∧ delivered res ≤ 4 := by
  intro res
  have hargs : decompressArgs builtinLevels Libraries.ref.registerBuiltins.2
      (TableCache.codecTable builtinLevels ⟨none, none⟩ Libraries.ref.registerBuiltins.2).1
      (.raw [1, 2, 3, 4, 5, 6]) (.character [some (Builtin.name .identity)])
      (.numeric [.finite (4 : ℕ)]) .null =
      .ok ⟨[1, 2, 3, 4, 5, 6], false, Builtin.name .identity, none, .finite (4 : ℕ), some 0,
        wholeDecFlags⟩ := rfl
  have h : KompDecompresses builtinLevels Libraries.ref.registerBuiltins.2 ⟨none, none⟩
      (.raw [1, 2, 3, 4, 5, 6]) (.character [some (Builtin.name .identity)])
      (.numeric [.finite (4 : ℕ)]) .null res := by
    unfold KompDecompresses Finishes
    rw [hargs]
    exact ⟨(.errOutputLimit, [1, 2, 3, 4]), ⟨⟨_, [1, 2, 3, 4], 4⟩, .done rfl, rfl⟩, rfl⟩
  exact ⟨h, (kompDecompress_guarded (fun e he => (builtins_serve refLz4_confined he).decoder) h).1 4
    (.number 4) (by decide)⟩

end Zukomp.Package
