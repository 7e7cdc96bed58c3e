import Zukomp.Package.Conclusion
import Zukomp.Returned

/-! # What komp_compress makes, komp_decompress gives back

Over any registry with the codecs of this package in it, whatever other packages have registered and
whatever the table of codecs was used for before. A limit that is below the text is reported as such.
-/

namespace Zukomp

open Library

/-- The library has the memory for a decoder. -/
def Libraries.Opens (K : Libraries) (b : Builtin) : Prop :=
  ∀ o, ∃ s, (K.codec b).decoderNew o = .ok s

/-- Libraries that write and read the letter `a`. -/
def Libraries.summed : Libraries where
  miniz := pairMiniz fixedA
  zstd := refZstdWriter zstdSummedA
  lz4f := refLz4fWriter
  lz4 := refLz4

namespace Package

variable {K : Libraries} {levels : Registrant → AbstractLevels} {r : Registry} {c : TableCache}
  {b : Builtin}

/-- A registry and a cache of a session in which the package is loaded. -/
structure Session (K : Libraries) (levels : Registrant → AbstractLevels) (r : Registry)
    (c : TableCache) : Prop where
  loaded : K.Loaded r
  run : TableRun levels r c

theorem summed_session :
    Session Libraries.summed builtinLevels Libraries.summed.registerBuiltins.2 ⟨none, none⟩ :=
  ⟨loaded_builtins _, TableRun.load.registerAll _⟩

namespace Session

theorem table (h : Session K levels r c) : (c.codecTable levels r).1 = r.codecTable levels :=
  h.run.holds.codecTable.1

theorem id_ne (b : Builtin) : b.id ≠ codecNone := by cases b <;> decide

theorem name_ne (b : Builtin) : b.name ≠ auto := by cases b <;> decide

theorem vtableOf (h : Session K levels r c) (b : Builtin) :
    vtableOf r b.id = some (K.codec b) := by
  rw [Package.vtableOf, h.loaded.lookup b]
  rfl

theorem checkCodecName (h : Session K levels r c) (b : Builtin) (allowAuto : Bool) :
    checkCodecName (c.codecTable levels r).1 allowAuto (.character [some b.name]) = .ok b.name := by
  rw [h.table, checkCodecName_available h.loaded.sound (name_ne b), kompCodecAvailable,
    codecAvailable, h.loaded.codecLookup b, if_neg (id_ne b), h.loaded.lookup b]
  rfl

end Session

/-- The ways to say which codec a stream is of: its name, or `"auto"` where it is detected. -/
inductive Names (levels : Registrant → AbstractLevels) (r : Registry) (bytes : List UInt8)
    (b : Builtin) : RValue → Prop
  | name : Names levels r bytes b (.character [some b.name])
  | detected (h : detect levels r bytes = some b.name) :
      Names levels r bytes b (.character [some auto])

theorem Session.decompressArgs (h : Session K levels r c) {bytes : List UInt8} {codec : RValue}
    (hcodec : Names levels r bytes b codec) {maxOutput maxRatio : RValue} {m : ℕ}
    (hm : Asks maxOutput m) (hle : m ≤ exactMax) (hratio : Asks maxRatio 0) :
    decompressArgs levels r (c.codecTable levels r).1 (.raw bytes) codec maxOutput maxRatio =
      .ok ⟨bytes, false, b.name, none, .finite m, some 0, wholeDecFlags⟩ := by
  have hmax : checkLimit exactMax (some b.name) maxOutput = .ok (m : ℚ) :=
    (checkLimit_eq (Nat.cast_nonneg _)).mpr ⟨m, hm, by exact_mod_cast hle, rfl⟩
  have hnone : checkLimit integerMax (some b.name) maxRatio = .ok ((0 : ℕ) : ℚ) :=
    (checkLimit_eq (by simp [integerMax])).mpr ⟨0, hratio, by simp [integerMax], rfl⟩
  have hzero : asInteger (.finite ((0 : ℕ) : ℚ)) = some 0 := by decide
  unfold Package.decompressArgs
  cases hcodec with
  | name =>
    have hname := h.checkCodecName b true
    have hresolve : resolveAuto levels r bytes b.name = .ok b.name := if_neg (name_ne b)
    simp only [bind, Except.bind, checkRaw, hname, hresolve, hmax, hnone, hzero]
    rfl
  | detected hdetect =>
    have hname : Package.checkCodecName (c.codecTable levels r).1 true (.character [some auto]) =
        .ok auto := rfl
    have hresolve : resolveAuto levels r bytes auto = .ok b.name := by
      rw [resolveAuto, if_pos rfl, detectOrAbort, hdetect]
    simp only [bind, Except.bind, checkRaw, hname, hresolve, hmax, hnone, hzero]
    rfl

theorem Session.decoder (h : Session K levels r c) (hopen : K.Opens b) (bytes : List UInt8) (m : ℕ) :
    ∃ d : Decoder (K.codec b),
      decoderNew (Package.vtableOf r) (decompressOpts bytes b.id m 0).decoderOpts =
          .ok ⟨K.codec b, d⟩ ∧
        d.opts.maxOutput = UInt64.ofNat m ∧ d.opts.flags = wholeDecFlags ∧ d.opts.maxRatio = 0 := by
  have hboth : ((canEncode ||| canDecode ||| canFlush) &&& canDecode != 0) = true := by decide
  have hblock : ((canEncode ||| canDecode) &&& canDecode != 0) = true := by decide
  have hcan : (K.codec b).can canDecode = true := by
    cases b with
    | lz4Block => exact hblock
    | _ => exact hboth
  have hresolve : resolve (Package.vtableOf r) b.id canDecode = .ok (K.codec b) := by
    rw [resolve, h.vtableOf b]
    exact if_pos hcan
  obtain ⟨s, hs⟩ := hopen (copyDecoderOpts (decompressOpts bytes b.id m 0).decoderOpts)
  refine ⟨⟨s, copyDecoderOpts (decompressOpts bytes b.id m 0).decoderOpts, false, 0, 0⟩, ?_, rfl,
    rfl, rfl⟩
  have hopts : checkDecOpts (decompressOpts bytes b.id m 0).decoderOpts = .ok := by
    have hlong : ¬ decoderOptsSize < decoderOptsRequiredSize := by decide
    have hexp : ¬ (wholeDecFlags &&& decExpectedSize != 0) = true := by decide
    exact (if_neg hlong).trans (if_neg fun hbad => hexp hbad.1)
  have hcodec : (decompressOpts bytes b.id m 0).decoderOpts.codec = b.id := rfl
  rw [decoderNew, if_neg (not_not.mpr hopts), hcodec, hresolve]
  dsimp only
  rw [hs]

/-- The call to C, over a valid stream. -/
theorem Session.intWhole (h : Session K levels r c) (D : K.Decodes b) (hopen : K.Opens b)
    {s : Coding UInt8} {m : ℕ} (hle : m ≤ exactMax)
    (hs : D.Stream (UInt64.ofNat m) wholeDecFlags s)
    (hblock : b = .lz4Block → Lz4bFits (UInt64.ofNat m) s)
    (hfits : s.text.length + wholeChunk < wordSize) :
    ∃ e : Status × OutBuf, EndsWithin b s (UInt64.ofNat m) wholeChunk e ∧ ∀ result,
      IntWhole r ⟨s.code, false, b.name, none, .finite m, some 0, wholeDecFlags⟩ result ↔
        result = (e.1, e.2.used) := by
  obtain ⟨d, hnew, hmax, hflags, hratio⟩ := h.decoder hopen s.code m
  have hexp : d.opts.hasExpected = false := by
    rw [DecoderOpts.hasExpected, hflags]
    decide
  have hopts : WholeArgs.opts ⟨s.code, false, b.name, none, .finite m, some 0, wholeDecFlags⟩ r =
      .ok (decompressOpts s.code b.id m 0) := by
    have hnarrow : u32FromInt (some 0) = some (UInt32.ofNat 0) := by decide
    have hname : r.codecLookup (some b.name) = b.id := h.loaded.codecLookup b
    rw [WholeArgs.opts, u64FromReal_natCast hle, hnarrow]
    dsimp only [levelFromSexp]
    rw [hname, if_neg (id_ne b)]
    rfl
  rw [← hmax, ← hflags] at hs
  rw [← hmax] at hblock ⊢
  have hin : 0 < (decompressOpts s.code b.id m 0).inChunk := show 0 < wholeChunk by decide
  have hsmall : (decompressOpts s.code b.id m 0).inChunk ≤ mzClamp :=
    show wholeChunk ≤ mzClamp by decide
  obtain ⟨e, hret, hend⟩ := wholeDecode_endsWithin D hnew hratio hexp hs hblock rfl hin hsmall hin rfl hfits
  refine ⟨e, hend, fun result => ?_⟩
  have hruns (res : Status × OutBuf) :
      RunsWhole (Package.vtableOf r) (decompressOpts s.code b.id m 0) .empty res ↔
        Returns (wholeTurn decoderProcess (decompressOpts s.code b.id m 0))
          (.start d (decompressOpts s.code b.id m 0) .empty) res := by
    rw [RunsWhole, if_neg (by simp [decompressOpts, wholeChunk]), if_neg (by simp [decompressOpts]),
      hnew]
  rw [IntWhole, hopts]
  constructor
  · rintro ⟨out, hrun, hbytes⟩
    obtain rfl := hret.unique ((hruns _).mp hrun)
    exact Prod.ext rfl hbytes
  · rintro rfl
    exact ⟨e.2, (hruns _).mpr hret, rfl⟩

/-- `max_output` admits the text `x` of the stream `z`. -/
def Admits (b : Builtin) (m : ℕ) (x z : List UInt8) : Prop :=
  m = 0 ∨ x.length < m ∨ x.length = m ∧ (b.Stalls → z.length ≤ wholeChunk)

theorem toNat_limit {m : ℕ} (hle : m ≤ exactMax) : (UInt64.ofNat m).toNat = m :=
  Nat.mod_eq_of_lt (hle.trans_lt (by decide))

theorem limit_eq_zero {m : ℕ} (hle : m ≤ exactMax) : UInt64.ofNat m = 0 ↔ m = 0 := by
  refine ⟨fun h0 => ?_, fun h0 => by rw [h0]; rfl⟩
  have hnat := toNat_limit hle
  rw [h0] at hnat
  exact hnat.symm

section Limits

variable {D : K.Decodes b} {s : Coding UInt8} {m : ℕ} {codec maxOutput maxRatio : RValue}

theorem Session.finishes (h : Session K levels r c) (hopen : K.Opens b) (hle : m ≤ exactMax)
    (hs : D.Stream (UInt64.ofNat m) wholeDecFlags s)
    (hblock : b = .lz4Block → Lz4bFits (UInt64.ofNat m) s)
    (hfits : s.text.length + wholeChunk < wordSize) (hcodec : Names levels r s.code b codec)
    (hm : Asks maxOutput m) (hratio : Asks maxRatio 0) :
    ∃ e : Status × OutBuf, EndsWithin b s (UInt64.ofNat m) wholeChunk e ∧ ∀ res,
      KompDecompresses levels r c (.raw s.code) codec maxOutput maxRatio res ↔
        res = finish (e.1, e.2.used) b.name s.code := by
  obtain ⟨e, hend, hcall⟩ := h.intWhole D hopen hle hs hblock hfits
  refine ⟨e, hend, fun res => ?_⟩
  rw [KompDecompresses, h.decompressArgs hcodec hm hle hratio]
  constructor
  · rintro ⟨result, hresult, rfl⟩
    rw [(hcall result).mp hresult]
  · exact fun hres => ⟨_, (hcall _).mpr rfl, hres⟩

theorem Session.passes (h : Session K levels r c) (hopen : K.Opens b) (hle : m ≤ exactMax)
    (hs : D.Stream (UInt64.ofNat m) wholeDecFlags s)
    (hblock : b = .lz4Block → Lz4bFits (UInt64.ofNat m) s)
    (hfits : s.text.length + wholeChunk < wordSize) (hcodec : Names levels r s.code b codec)
    (hm : Asks maxOutput m) (hratio : Asks maxRatio 0) (hadmits : Admits b m s.text s.code)
    (res : Except Condition (List UInt8)) :
    KompDecompresses levels r c (.raw s.code) codec maxOutput maxRatio res ↔ res = .ok s.text := by
  obtain ⟨e, hend, hiff⟩ := h.finishes hopen hle hs hblock hfits hcodec hm hratio
  have hpass := hend.passes
  rw [toNat_limit hle, limit_eq_zero hle] at hpass
  obtain ⟨hst, htext⟩ := hpass hadmits
  rw [hiff, hst, htext]
  rfl

/-- A whole-buffer decompression of a valid stream returns its text where `max_output` admits it;
where it does not, it raises `zukomp_output_limit` after as many bytes as are allowed. Whatever other
packages have registered, the outcome is the only one. -/
theorem kompDecompress_limits (h : Session K levels r c) (hopen : K.Opens b) (hle : m ≤ exactMax)
    (hs : D.Stream (UInt64.ofNat m) wholeDecFlags s)
    (hblock : b = .lz4Block → Lz4bFits (UInt64.ofNat m) s)
    (hfits : s.text.length + wholeChunk < wordSize) (hcodec : Names levels r s.code b codec)
    (hm : Asks maxOutput m) (hratio : Asks maxRatio 0) (res : Except Condition (List UInt8)) :
    (Admits b m s.text s.code →
      (KompDecompresses levels r c (.raw s.code) codec maxOutput maxRatio res ↔
        res = .ok s.text)) ∧
    (m ≠ 0 → m < s.text.length →
      (KompDecompresses levels r c (.raw s.code) codec maxOutput maxRatio res ↔
        res = .error ⟨.outputLimit, b.name, s.code.length, m, some .errOutputLimit⟩)) := by
  refine ⟨fun hadmits => h.passes hopen hle hs hblock hfits hcodec hm hratio hadmits res, fun hne hlt => ?_⟩
  obtain ⟨e, hend, hiff⟩ := h.finishes hopen hle hs hblock hfits hcodec hm hratio
  have hrefuses := hend.refuses (mt (limit_eq_zero hle).mp hne)
  rw [toNat_limit hle] at hrefuses
  obtain ⟨hst, htext⟩ := hrefuses hlt
  have hlen : (s.text.take m).length = m := by
    rw [List.length_take]
    omega
  rw [hiff, hst, htext, finish, if_pos ⟨by simp, by simp⟩]
  dsimp only
  rw [abortStatus, hlen]
  rfl

theorem kompDecompress_limits_copy :
    KompDecompresses builtinLevels Libraries.summed.registerBuiltins.2 ⟨none, none⟩
      (.raw [1, 2, 3]) (.character [some (Builtin.name .identity)]) (.numeric [.finite (2 : ℕ)]) .null
      (.error ⟨.outputLimit, some (Builtin.name .identity), some 3, some 2, some .errOutputLimit⟩) :=
  ((kompDecompress_limits (b := .identity) (D := ()) (s := ⟨[1, 2, 3], [1, 2, 3]⟩) summed_session
    (fun _ => ⟨_, rfl⟩) (by decide) rfl nofun (by decide) .name (.number 2) .null _).2 (by decide) (by decide)).mpr rfl

end Limits

/-! ## Compression -/

/-- The options of a run that compresses. -/
def compressOpts (src : List UInt8) (codec : CodecId) (level : ℤ) : RunOpts where
  src := src
  encode := true
  codec := codec
  level := level
  maxOutput := 0
  maxRatio := 0
  decFlags := 0
  expectedSize := 0
  inChunk := if 0 < src.length then src.length else 1
  outChunk := wholeChunk
  flushEvery := 0

theorem compressOpts_chunks (src : List UInt8) (codec : CodecId) (level : ℤ) :
    ¬ ((compressOpts src codec level).inChunk = 0 ∨ (compressOpts src codec level).outChunk = 0) := by
  rintro (hin | hout)
  · simp only [compressOpts] at hin
    split_ifs at hin
    omega
  · cases hout

theorem Session.compressArgs_ok (h : Session K levels r c) {x : List UInt8} {level : RValue}
    {a : WholeArgs} (ha : compressArgs (c.codecTable levels r).1 (.raw x)
      (.character [some b.name]) level = .ok a) :
    ∃ l, a = ⟨x, true, b.name, l, .finite 0, some 0, 0⟩ := by
  have hname := h.checkCodecName b false
  unfold compressArgs at ha
  simp only [bind, Except.bind, checkRaw, hname] at ha
  split at ha
  · cases ha
  · next l _ => exact ⟨l, (Except.ok.inj ha).symm⟩

theorem Session.compressOpts_ok (h : Session K levels r c) {x : List UInt8}
    {l : Option (Option ℤ)} {o : RunOpts}
    (ho : WholeArgs.opts ⟨x, true, b.name, l, .finite 0, some 0, 0⟩ r = .ok o) :
    ∃ lv, o = compressOpts x b.id lv := by
  have hname : r.codecLookup (some b.name) = b.id := h.loaded.codecLookup b
  have hout : u64FromReal (.finite 0) = some 0 := u64FromReal_natCast (n := 0) (Nat.zero_le _)
  have hratio : u32FromInt (some 0) = some 0 := by decide
  rw [WholeArgs.opts, hout, hratio] at ho
  cases hlevel : levelFromSexp l with
  | none =>
    rw [hlevel] at ho
    cases ho
  | some lv =>
    rw [hlevel] at ho
    dsimp only at ho
    rw [hname, if_neg (id_ne b)] at ho
    exact ⟨lv, (Except.ok.inj ho).symm⟩

/-- A compression that returns bytes has written them by one encoder, up to the stream's end. -/
theorem Session.compressed (h : Session K levels r c) (hstarts : K.Starts) {x z : List UInt8}
    {level : RValue}
    (hz : KompCompresses levels r c (.raw x) (.character [some b.name]) level (.ok z)) :
    ∃ (lv : ℤ) (e : Encoder (K.codec b)) (out : OutBuf),
      encoderNew (Package.vtableOf r) (compressOpts x b.id lv).encoderOpts = .ok ⟨K.codec b, e⟩ ∧
        RunsWhole (Package.vtableOf r) (compressOpts x b.id lv) .empty (.streamEnd, out) ∧
          out.used = z := by
  unfold KompCompresses Finishes at hz
  cases hargs : compressArgs (c.codecTable levels r).1 (.raw x) (.character [some b.name]) level with
  | error k =>
    rw [hargs] at hz
    cases hz
  | ok a =>
    rw [hargs] at hz
    obtain ⟨result, hwhole, hfinish⟩ := hz
    obtain ⟨l, rfl⟩ := h.compressArgs_ok hargs
    obtain ⟨hok, rfl⟩ := finish_ok hfinish.symm
    unfold IntWhole at hwhole
    rcases WholeArgs.opts_cases ⟨x, true, b.name, l, .finite 0, some 0, 0⟩ r with
      ⟨st, hopts, hst⟩ | ⟨o, hopts, -, -⟩
    · rw [hopts] at hwhole
      rw [hwhole] at hok
      exact absurd hst.1 (by simp [show st.isError = false from hok])
    · rw [hopts] at hwhole
      obtain ⟨lv, rfl⟩ := h.compressOpts_ok hopts
      obtain ⟨out, hrun, hbytes⟩ := hwhole
      have hfound {v : CodecVtable} (hv : Package.vtableOf r b.id = some v) : v = K.codec b :=
        Option.some.inj (hv.symm.trans (h.vtableOf b))
      have hstarted := hrun
      have hencode : (compressOpts x b.id lv).encode = true := rfl
      rw [RunsWhole, if_neg (compressOpts_chunks x b.id lv), if_pos hencode] at hstarted
      cases hnew : encoderNew (Package.vtableOf r) (compressOpts x b.id lv).encoderOpts with
      | error st =>
        rw [hnew] at hstarted
        have hst : st.Refuses := by
          refine encoderNew_refuses (fun v hv => ?_) hnew
          obtain rfl := hfound hv
          exact hstarts.encoder b
        rw [(Prod.mk.inj hstarted).1, hst.1] at hok
        cases hok
      | ok e =>
        obtain ⟨v, e⟩ := e
        obtain rfl : v = K.codec b := hfound (encoderNew_found hnew)
        rw [hnew] at hstarted
        have hended := hstarted.keeps (fun _ => True) (fun y _ => wholeTurn_ended encoderProcess y)
          trivial
        have hend : result.1 = .streamEnd := hended.resolve_right (by simp [hok])
        rw [hend] at hrun
        exact ⟨lv, e, out, hnew, hrun, hbytes.symm⟩

/-- What a compression may be asked to do: of the DEFLATE family, payloads that miniz can be shown
whole; of lz4-block, blocks that are no longer than liblz4's largest input. -/
structure Representable (b : Builtin) (x z : List UInt8) : Prop where
  view : b.Stalls → x.length ≤ mzClamp
  block : b = .lz4Block → z.length ≤ lz4MaxInputSize
  word : x.length + wholeChunk < wordSize

/-- What a compression returns is a valid stream of its payload, under every limit that admits it. -/
theorem Session.stream (h : Session K levels r c) {D : K.Decodes b} (W : D.Writes)
    (hstarts : K.Starts) {x z : List UInt8} {level : RValue}
    (hz : KompCompresses levels r c (.raw x) (.character [some b.name]) level (.ok z))
    (hrep : Representable b x z) {m : ℕ} (hle : m ≤ exactMax) (hadmits : Admits b m x z) :
    ∃ s, D.Stream (UInt64.ofNat m) wholeDecFlags s ∧
      (b = .lz4Block → Lz4bFits (UInt64.ofNat m) s) ∧ s.code = z ∧ s.text = x ∧
      (b.Detectable → b.Marks z) := by
  obtain ⟨lv, e, out, hnew, hrun, rfl⟩ := h.compressed hstarts hz
  have hword := hrep.word
  have hslice : Libraries.OneView b (compressOpts x b.id lv) := by
    have hchunks := compressOpts_chunks x b.id lv
    refine ⟨rfl, ?_, by omega, by omega, show x.length < wordSize by omega, hrep.view⟩
    change x.length ≤ if 0 < x.length then x.length else 1
    split_ifs <;> omega
  have hwithin : UInt64.ofNat m = 0 ∨ x.length ≤ (UInt64.ofNat m).toNat := by
    rw [toNat_limit hle]
    rcases hadmits with rfl | hlt | ⟨heq, -⟩
    · exact .inl rfl
    · exact .inr hlt.le
    · exact .inr heq.le
  exact W.whole hslice hnew hrun hrep.block hwithin wholeDecFlags

theorem summed_compresses :
    KompCompresses builtinLevels Libraries.summed.registerBuiltins.2 ⟨none, none⟩ (.raw [0x61])
      (.character [some (Builtin.name .zstd)]) .null (.ok zstdSummedA.code) := by
  have hargs : compressArgs
      (TableCache.codecTable builtinLevels ⟨none, none⟩ Libraries.summed.registerBuiltins.2).1
      (.raw [0x61]) (.character [some (Builtin.name .zstd)]) .null =
      .ok ⟨[0x61], true, Builtin.name .zstd, none, .finite 0, some 0, 0⟩ := rfl
  unfold KompCompresses Finishes
  rw [hargs]
  exact ⟨(.streamEnd, zstdSummedA.code), ⟨⟨_, _, _⟩, .done rfl, rfl⟩, rfl⟩

end Package

end Zukomp
