import Zukomp.Builtins
import Zukomp.Deflate.Bound
import Zukomp.Frames.Bound

/-! # The bounds of the built-in codecs

Each bound that is not refused covers the largest encoding of its codec and grows with the
payload, except where liblz4 counts the blocks of a frame in 32 bits.
-/

namespace Zukomp

open Library

/-! ## lz4-block -/

/-- `lz4b_bound`: `LZ4_compressBound` takes an `int`. -/
def lz4bBound : BoundEntry := fun _ n =>
  if lz4MaxInputSize < n then .error .errInvalidArgument
  else
    let b := lz4CompressBound n
    if b = 0 then .error .errInvalidArgument else .ok b

theorem lz4bBound_ok {n b : ℕ} {level : ℤ} (h : lz4bBound level n = .ok b) :
    n ≤ lz4MaxInputSize ∧ b = lz4CompressBound n := by
  unfold lz4bBound at h
  dsimp only at h
  split_ifs at h with hlong hzero
  exact ⟨Nat.not_lt.mp hlong, (Except.ok.inj h).symm⟩

/-- The encoder has gathered nothing yet. -/
def Lz4bFresh (s : Lz4bState) (p q : ℕ) : Prop :=
  s.encoder = true ∧ s.done = false ∧ s.stage = [] ∧ s.input = [] ∧ p = 0 ∧ q = 0

/-- Into the bound's room the block fits at once. -/
theorem lz4bEncoderProcess_fitsRoom {Z : Lz4} (L : Lz4Blocks Z) {n cap : ℕ} (hn : n ≤ lz4MaxInputSize)
    (hcap : lz4CompressBound n ≤ cap) (s : Lz4bState) (w : Window) {p q : ℕ}
    (hat : Lz4bFresh s p q) (hp : p + w.input.length = n) (hq : q + w.room = cap) :
    FitsRoom Lz4bFresh w p q (lz4bEncoderProcess Z s w .finish) := by
  obtain ⟨henc, hdone, hstage, hinput, rfl, rfl⟩ := hat
  have hword : w.input.length < wordSize := by
    unfold lz4MaxInputSize at hn
    unfold wordSize
    omega
  have hans := lz4bEncoder_finishes (w := w) L henc hdone hstage (by simp [hinput])
    (by simpa [hinput] using hword)
  rw [hinput, List.nil_append] at hans
  generalize lz4bEncoderProcess Z s w .finish = r at hans ⊢
  generalize hblock : lz4bBlock Z s.level w.input = res at hans
  cases hans with
  | @refused st t u read =>
    have herr : st.isError = true ∧ st ≠ .errOutputLimit ∧ st ≠ .needOutput := by
      rcases lz4bBlock_error hblock with rfl | rfl <;> simp [Status.isError]
    exact ⟨⟨u, [], .take read, fun h => absurd herr.1 (by simp [h])⟩, herr.2.1,
      fun h => absurd h herr.2.2⟩
  | @decoded x t done stage =>
    have hle : x.length ≤ w.room := by
      have := lz4bBlock_length L hblock
      rw [show w.input.length = n by omega] at this
      omega
    rw [if_pos (List.drop_eq_nil_of_le hle), List.take_of_length_le hle]
    have hmoved : w.Moved w.input.length x ((w.take w.input.length).put x) := ⟨le_rfl, hle, rfl⟩
    exact ⟨⟨_, _, hmoved, fun _ h => absurd rfl h⟩, by simp, by simp⟩

/-! ## The seven codecs -/

/-- The `bound` entries of the built-in vtables. -/
def boundEntry (codec : CodecId) : Option BoundEntry :=
  if codec = codecIdentity then some identityBound
  else if codec = codecDeflateRaw then some deflateRawBound
  else if codec = codecZlib then some zlibBound
  else if codec = codecGzip then some gzipBound
  else if codec = codecZstd then some zstdBound
  else if codec = codecLz4Frame then some lz4fBound
  else if codec = codecLz4Block then some lz4bBound
  else none

/-- The largest encoding of `n` bytes. -/
def worstSize (codec : CodecId) (n : ℕ) : ℕ :=
  if codec = codecIdentity then n
  else if codec = codecDeflateRaw then storedWorst n
  else if codec = codecZlib then storedWorst n + 6
  else if codec = codecGzip then storedWorst n + (gzipHeaderLen + 8)
  else if codec = codecZstd then zstdWorst n
  else if codec = codecLz4Frame then lz4fWorst n
  else n + n / 255 + 16

namespace Libraries

def lookup (K : Libraries) (codec : CodecId) : Option CodecVtable :=
  K.codecs.find? fun v => v.codec == codec

theorem lookup_codec {K : Libraries} {v : CodecVtable} (hv : v ∈ K.codecs) :
    K.lookup v.codec = some v := by
  simp only [codecs, List.mem_cons, List.not_mem_nil, or_false] at hv
  obtain rfl | rfl | rfl | rfl | rfl | rfl | rfl := hv <;> rfl

/-- `zu_compress_bound` over the built-in codecs. -/
def compressBound (K : Libraries) : CodecId → ℤ → ℕ → Except Status ℕ :=
  Zukomp.compressBound K.lookup boundEntry

/-- The bound of `n` bytes covers them, their largest encoding and every smaller bound. -/
def BoundCovers (K : Libraries) (codec : CodecId) (level : ℤ) (n : ℕ) : Prop :=
  ∀ b, K.compressBound codec level n = .ok b → n ≤ b ∧ worstSize codec n ≤ b ∧
    ∀ m ≤ n, ∀ b', K.compressBound codec level m = .ok b' → b' ≤ b

/-- The encodings of a codec's own library stay within its format's worst case. -/
def Bounded (K : Libraries) : Builtin → Prop
  | .identity => True
  | .deflateRaw | .zlib | .gzip => Nonempty (Stores K.miniz.deflate)
  | .zstd => ZstdFits K.zstd
  | .lz4Frame => Lz4fStores K.lz4f
  | .lz4Block => Nonempty (Lz4Blocks K.lz4)

end Libraries

/-- The payloads whose blocks a 32-bit count can hold; only lz4-frame counts them. -/
def Counted (codec : CodecId) (n : ℕ) : Prop := codec = codecLz4Frame → n ≤ lz4fBoundMax

/-- What is known of a codec and its `bound` entry. -/
structure CodecBound (v : CodecVtable) (f : BoundEntry) : Prop where
  entry : boundEntry v.codec = some f
  encodes : v.can canEncode = true
  le_worst : ∀ n, n ≤ worstSize v.codec n
  covers : ∀ {level n b}, n < wordSize → f level n = .ok b →
    (worstSize v.codec n ≤ b ↔ Counted v.codec n)
  answers : ∀ {level n}, n < wordSize → ¬ Counted v.codec n → ∃ b, f level n = .ok b
  mono : ∀ {level m n b b'}, m ≤ n → Counted v.codec n → f level m = .ok b' →
    f level n = .ok b → b' ≤ b
  refuses : ∀ {o st}, v.encoderNew o = .error st → st ≠ .errOutputLimit
  fits : ∀ {level b} {o : EncoderOpts} {e : Encoder v} {src : List UInt8} {dst : Option ℕ},
    v.encoderNew o = .ok e.state → f level src.length = .ok b → worstSize v.codec src.length ≤ b →
      (oneShot (fun e buf => encoderProcess e buf .finish) e src dst b).1 ≠ .errOutputLimit

theorem identity_bound : CodecBound identityCodec identityBound where
  entry := rfl
  encodes := rfl
  le_worst n := le_rfl
  covers _ h := ⟨fun _ h => absurd h (by decide), fun _ => (Except.ok.inj h).le⟩
  answers _ h := absurd (fun h => absurd h (by decide)) h
  mono hle _ hm hn := (Except.ok.inj hm).symm ▸ (Except.ok.inj hn).symm ▸ hle
  refuses h := by cases h
  fits _ _ hcap := by
    have hv : identityCodec.encoderProcess = onBuffer identityProcess := rfl
    exact oneShot_fits hv (fun _ p q => p = q)
      (fun _ w _ _ hat hp hq => identity_fitsRoom hcap w hat hp hq) rfl

theorem canEncode_both : ((canEncode ||| canDecode ||| canFlush) &&& canEncode != 0) = true := by
  decide

/-- The three wrappers of DEFLATE. -/
theorem deflate_bound {M : Miniz} (C : Stores M.deflate) {codec : CodecId} {wrap : WrapKind}
    (hentry : boundEntry codec = some (deflateBound (hdrLength wrap + tailLength wrap)))
    (hworst : ∀ n, worstSize codec n = storedWorst n + (hdrLength wrap + tailLength wrap))
    (hcodec : codec ≠ codecLz4Frame) :
    CodecBound (deflateVtable M codec wrap) (deflateBound (hdrLength wrap + tailLength wrap)) where
  entry := hentry
  encodes := canEncode_both
  le_worst n := by
    change n ≤ worstSize codec n
    rw [hworst]
    unfold storedWorst
    omega
  covers {level n b} _ h := by
    refine ⟨fun _ h => absurd h hcodec, fun _ => ?_⟩
    change worstSize codec n ≤ b
    rw [hworst, deflateBound_ok h]
    unfold storedWorst
    omega
  answers _ h := absurd (fun h => absurd h hcodec) h
  mono hle _ hm hn := by
    rw [deflateBound_ok hm, deflateBound_ok hn]
    omega
  refuses {o st} h := by
    change deflateNew M.deflate wrap true o.level 0 = .error st at h
    unfold deflateNew at h
    dsimp only at h
    split at h
    · cases h
    · next code _ _ _ =>
      rw [← Except.error.inj h]
      cases code <;> simp [fromMz]
  fits {level b o e src dst} hnew h _ := by
    obtain ⟨hwraps, hat⟩ := deflateNew_stored C hnew
    have hv : (deflateVtable M codec wrap).encoderProcess = onBuffer deflateProcess := rfl
    refine oneShot_fits hv (fun s p q => s.hdrLen + s.tailLen = hdrLength wrap + tailLength wrap ∧
        DeflateStored C s p q) (fun s w p q hat hp hq => ?_) ⟨hwraps, hat⟩
    exact deflateProcess_fitsRoom C (deflateBound_ok h).ge s w hat.1 hat.2 hp hq

theorem zstd_bound {Z : Zstd} (C : ZstdFits Z) : CodecBound (zstdCodec Z) zstdBound where
  entry := rfl
  encodes := canEncode_both
  le_worst n := by
    change n ≤ zstdWorst n
    unfold zstdWorst
    omega
  covers _ h := ⟨fun _ h => absurd h (show codecZstd ≠ codecLz4Frame by decide), fun _ => (zstdBound_ok h).ge⟩
  answers _ h := absurd (fun h => absurd h (show codecZstd ≠ codecLz4Frame by decide)) h
  mono hle _ hm hn := by
    rw [zstdBound_ok hm, zstdBound_ok hn]
    exact zstdWorst_mono hle
  refuses h := zstdEncoderNew_refused h
  fits {level b o e src dst} hnew hbound _ := by
    have hv : (zstdCodec Z).encoderProcess = onBuffer zstdEncoderProcess := rfl
    refine oneShot_fits hv (fun s p q => s = e.state ∧ p = 0 ∧ q = 0)
      (fun s w p q hat hp hq => ?_) ⟨rfl, rfl, rfl⟩
    obtain ⟨rfl, rfl, rfl⟩ := hat
    rw [Nat.zero_add] at hp hq
    exact zstdEncoderProcess_fitsRoom C hnew (zstdEncoderNew_done hnew) (hp ▸ hq ▸ hbound)

theorem lz4Frame_bound {F : Lz4f} (C : Lz4fStores F) : CodecBound (lz4FrameCodec F) lz4fBound where
  entry := rfl
  encodes := canEncode_both
  le_worst n := by
    change n ≤ lz4fWorst n
    unfold lz4fWorst
    omega
  covers {level n b} hn h := by
    change lz4fWorst n ≤ b ↔ _
    constructor
    · intro hle _
      by_contra hmax
      exact absurd hle (Nat.not_le.mpr (lz4fBound_short (Nat.not_le.mp hmax) hn h))
    · intro hmax
      rw [lz4fBound_ok (hmax rfl) h]
      exact Nat.le_add_right _ _
  answers hn _ := ⟨_, lz4fBound_eq hn _⟩
  mono hle hmax hm hn := by
    rw [lz4fBound_ok (hle.trans (hmax rfl)) hm, lz4fBound_ok (hmax rfl) hn]
    exact Nat.add_le_add_right (lz4fWorst_mono hle) 4
  refuses {o st} h := by
    change lz4fEncoderNew F o = .error st at h
    unfold lz4fEncoderNew at h
    split at h <;> cases h
    simp
  fits {level b o e src dst} hnew _ hcap := by
    obtain ⟨z, hz, hat⟩ := lz4fEncoderNew_stored hnew
    have hv : (lz4FrameCodec F).encoderProcess = onBuffer lz4fEncoderProcess := rfl
    refine oneShot_fits hv (Lz4fStored F z) (fun s w p q hat hp hq => ?_) hat
    exact lz4fEncoderProcess_fitsRoom C hz hcap s w hat hp hq

theorem lz4Block_bound {Z : Lz4} (L : Lz4Blocks Z) : CodecBound (lz4BlockCodec Z) lz4bBound where
  entry := rfl
  encodes := show (canEncode ||| canDecode) &&& canEncode != 0 by decide
  le_worst n := by
    change n ≤ n + n / 255 + 16
    omega
  covers {level n b} _ h := by
    refine ⟨fun _ h => absurd h (show codecLz4Block ≠ codecLz4Frame by decide), fun _ => ?_⟩
    obtain ⟨hfits, rfl⟩ := lz4bBound_ok h
    rw [lz4CompressBound, if_neg (Nat.not_lt.mpr hfits)]
    exact le_rfl
  answers _ h := absurd (fun h => absurd h (show codecLz4Block ≠ codecLz4Frame by decide)) h
  mono {level m n b b'} hle _ hm hn := by
    obtain ⟨hm', rfl⟩ := lz4bBound_ok hm
    obtain ⟨hn', rfl⟩ := lz4bBound_ok hn
    rw [lz4CompressBound, lz4CompressBound, if_neg (Nat.not_lt.mpr hm'),
      if_neg (Nat.not_lt.mpr hn')]
    omega
  refuses h := by cases h
  fits {level b o e src dst} hnew h _ := by
    obtain ⟨hfits, rfl⟩ := lz4bBound_ok h
    have hv : (lz4BlockCodec Z).encoderProcess = onBuffer (lz4bEncoderProcess Z) := rfl
    refine oneShot_fits hv Lz4bFresh
      (fun s w p q hat hp hq => lz4bEncoderProcess_fitsRoom L hfits le_rfl s w hat hp hq) ?_
    rw [show e.state = lz4bNew true o.level none from (Except.ok.inj hnew).symm]
    exact ⟨rfl, rfl, rfl, rfl, rfl, rfl⟩

theorem Libraries.Bounded.bound {K : Libraries} {b : Builtin} (C : K.Bounded b) :
    ∃ f, CodecBound (K.codec b) f := by
  cases b with
  | identity => exact ⟨_, identity_bound⟩
  | deflateRaw => exact C.elim fun C => ⟨_, deflate_bound C rfl (fun _ => rfl) (by decide)⟩
  | zlib => exact C.elim fun C => ⟨_, deflate_bound C rfl (fun _ => rfl) (by decide)⟩
  | gzip => exact C.elim fun C => ⟨_, deflate_bound C rfl (fun _ => rfl) (by decide)⟩
  | zstd => exact ⟨_, zstd_bound C⟩
  | lz4Frame => exact ⟨_, lz4Frame_bound C⟩
  | lz4Block => exact C.elim fun L => ⟨_, lz4Block_bound L⟩

theorem CodecBound.resolve_eq {K : Libraries} {v : CodecVtable} {f : BoundEntry}
    (h : CodecBound v f) (hv : v ∈ K.codecs) : resolve K.lookup v.codec canEncode = .ok v := by
  unfold resolve
  rw [Libraries.lookup_codec hv]
  exact if_pos h.encodes

/-- The bound of an accepted level is the codec's own. -/
theorem CodecBound.eq {K : Libraries} {v : CodecVtable} {f : BoundEntry} (h : CodecBound v f)
    (hv : v ∈ K.codecs) {level : ℤ} (hlevel : checkLevel v level = .ok) (n : ℕ) :
    K.compressBound v.codec level n = f level n := by
  unfold Libraries.compressBound compressBound
  rw [h.resolve_eq hv]
  dsimp only
  rw [if_neg (by simp [hlevel]), h.entry]

/-- The bound of a payload covers it unless its blocks overflow liblz4's 32-bit count, and a buffer
that holds the largest encoding never fails a one-shot compression for want of room. -/
theorem compressBound_exact {K : Libraries} {c : Builtin} (C : K.Bounded c) {level : ℤ}
    (hlevel : checkLevel (K.codec c) level = .ok) {n : ℕ} (hn : n < wordSize) :
    (K.BoundCovers (K.codec c).codec level n ↔ Counted (K.codec c).codec n) ∧
    ∀ b, K.compressBound (K.codec c).codec level n = .ok b → worstSize (K.codec c).codec n ≤ b →
      ∀ (opts : EncoderOpts) (src : List UInt8) (dst : Option ℕ), opts.codec = (K.codec c).codec →
        opts.level = level → src.length = n →
          (compressOne K.lookup opts src dst b).1 ≠ .errOutputLimit := by
  obtain ⟨f, hf⟩ := C.bound
  have hv : K.codec c ∈ K.codecs := Libraries.mem_codecs.mpr ⟨c, rfl⟩
  generalize K.codec c = v at hlevel hf hv ⊢
  unfold Libraries.BoundCovers
  simp only [hf.eq hv hlevel]
  constructor
  · constructor
    · intro hcovers
      by_contra hlost
      obtain ⟨b, hb⟩ := hf.answers hn hlost
      exact hlost ((hf.covers hn hb).mp (hcovers b hb).2.1)
    · intro hcounted b hb
      have hworst := (hf.covers hn hb).mpr hcounted
      exact ⟨(hf.le_worst n).trans hworst, hworst,
        fun m hm b' hb' => hf.mono hm hcounted hb' hb⟩
  · rintro b hb hworst opts src dst hcodec rfl rfl
    unfold compressOne encoderNew
    by_cases hdst : dst.isNone ∧ b ≠ 0
    · rw [if_pos hdst]
      simp
    rw [if_neg hdst]
    by_cases hsize : opts.structSize < encoderOptsSize
    · rw [if_pos hsize]
      simp
    rw [if_neg hsize, hcodec, hf.resolve_eq hv]
    dsimp only
    rw [if_neg (by simp [hlevel])]
    cases hnew : v.encoderNew (copyEncoderOpts opts) with
    | error st => exact hf.refuses hnew
    | ok s =>
      exact hf.fits (o := copyEncoderOpts opts) (e := ⟨s, copyEncoderOpts opts, false⟩) hnew hb hworst

/-! ## Reference compressors -/

structure RefStore where
  held : List UInt8
  done : Bool

def refStoreStep (z : RefStore) (input : List UInt8) (room : ℕ) (flush : MzFlush) :
    MzStep RefStore :=
  let held := z.held ++ input
  if z.done then ⟨.streamEnd, z, 0, []⟩
  else if flush = .finish ∧ held.length + 5 ≤ room then
    ⟨.streamEnd, ⟨[], true⟩, input.length,
      [1, UInt8.ofNat held.length, UInt8.ofNat (held.length / 256), UInt8.ofNat (255 - held.length),
        UInt8.ofNat (255 - held.length / 256)] ++ held⟩
  else ⟨if input = [] then .bufError else .ok, ⟨held, false⟩, input.length, []⟩

def refStore : MzStream where
  State := RefStore
  init _ := (.ok, ⟨[], false⟩)
  reset _ := (.ok, ⟨[], false⟩)
  process := refStoreStep
  used_le z input room flush := by
    unfold refStoreStep
    dsimp only
    split_ifs <;> simp
  out_le z input room flush := by
    unfold refStoreStep
    dsimp only
    split_ifs with hdone hfits
    · exact Nat.zero_le _
    · rw [List.length_append] at hfits
      simp only [List.length_append, List.length_cons, List.length_nil]
      omega
    all_goals exact Nat.zero_le _
  reset_status _ := .inl rfl

/-- Nothing is written before the end, and then one stored block. -/
def RefStore.At (z : RefStore) (p q : ℕ) : Prop :=
  if z.done then q ≤ p + 5 else q = 0 ∧ z.held.length = p

def refStoreStores : Stores refStore where
  At := RefStore.At
  init _ _ := ⟨rfl, rfl⟩
  process := by
    intro z p q input room h
    change RefStore.At (refStoreStep z input room .finish).state
      (p + (refStoreStep z input room .finish).used)
      (q + (refStoreStep z input room .finish).out.length)
    unfold RefStore.At at h
    unfold refStoreStep
    dsimp only
    by_cases hdone : z.done = true
    · rw [if_pos hdone] at h ⊢
      unfold RefStore.At
      rwa [if_pos hdone]
    rw [if_neg hdone] at h ⊢
    obtain ⟨rfl, rfl⟩ := h
    by_cases hfits : MzFlush.finish = .finish ∧ (z.held ++ input).length + 5 ≤ room
    · rw [if_pos hfits]
      unfold RefStore.At
      rw [if_pos rfl]
      simp only [List.length_append, List.length_cons, List.length_nil]
      omega
    · rw [if_neg hfits]
      exact ⟨rfl, List.length_append⟩
  le := by
    intro z p q h
    unfold RefStore.At at h
    unfold storedWorst
    split_ifs at h <;> omega

theorem Lz4fLog.Open.of_snoc {prefs : Lz4fPrefs} {log : Lz4fLog} {c : Lz4fCall}
    {bytes : List UInt8} (h : Lz4fLog.Open prefs (log ++ [(c, bytes)])) :
    log = [] ∧ c = .begin prefs ∨ log.Open prefs ∧ c.Inner := by
  obtain ⟨header, inner, heq, hinner⟩ := h
  cases log with
  | nil =>
    rw [List.nil_append, List.cons_eq_cons] at heq
    exact .inl ⟨rfl, congrArg Prod.fst heq.1⟩
  | cons d log =>
    rw [List.cons_append, List.cons_eq_cons] at heq
    obtain ⟨rfl, rfl⟩ := heq
    exact .inr ⟨⟨header, log, rfl, fun c hc => hinner c (by simp [hc])⟩,
      hinner (c, bytes) (by simp)⟩

theorem Lz4fLog.Whole.of_snoc {prefs : Lz4fPrefs} {log : Lz4fLog} {c : Lz4fCall}
    {bytes : List UInt8} (h : Lz4fLog.Whole prefs (log ++ [(c, bytes)])) :
    log.Open prefs ∧ c = .finish := by
  obtain ⟨log', tail, heq, hopen⟩ := h
  obtain ⟨rfl, hlast⟩ := List.append_inj' heq rfl
  exact ⟨hopen, congrArg Prod.fst (List.cons.inj hlast).1⟩

/-- What the reference library has given of a frame with no flush, and what it holds. -/
structure RefFramed (W : FrameWriter refLz4fWriter) : Prop where
  opened : ∀ prefs, W.log.Open prefs → W.log.outputs.length = 15 ∧
    (show List UInt8 from W.cctx) = W.log.payload
  whole : ∀ prefs, W.log.Whole prefs →
    W.log.outputs.length ≤ lz4fWorst W.log.payload.length

theorem refLz4fBlock_length (x : List UInt8) :
    15 + ((refLz4fBlock x).length + 8) ≤ lz4fWorst x.length := by
  unfold refLz4fBlock lz4fWorst lz4fBlockHeaderSize lz4fBlockSize
  split_ifs with hx
  · rw [hx]
    decide
  · have := List.length_pos_of_ne_nil hx
    simp only [List.length_append, List.length_cons, List.length_nil]
    omega

theorem refLz4fWriter_call {W : FrameWriter refLz4fWriter} (h : RefFramed W) {c : Lz4fCall}
    (hc : c ≠ .flush) {bytes : List UInt8} {z : List UInt8}
    (hcall : refLz4fWriter.call W.cctx c = (.ok bytes, z)) :
    RefFramed { W with cctx := z, log := W.log ++ [(c, bytes)], stage := bytes } := by
  constructor
  · intro prefs hopen
    dsimp only at hopen ⊢
    rw [Lz4fLog.outputs_snoc, Lz4fLog.payload_snoc, List.length_append]
    rcases hopen.of_snoc with ⟨hlog, rfl⟩ | ⟨hlog, ⟨x, rfl⟩ | rfl⟩
    · cases hcall
      rw [hlog]
      exact ⟨rfl, rfl⟩
    · obtain ⟨hlen, hheld⟩ := h.opened prefs hlog
      cases hcall
      refine ⟨hlen, ?_⟩
      rw [← hheld]
      rfl
    · exact absurd rfl hc
  · intro prefs hwhole
    dsimp only at hwhole ⊢
    rw [Lz4fLog.outputs_snoc, Lz4fLog.payload_snoc, List.length_append, List.length_append]
    obtain ⟨hopen, rfl⟩ := hwhole.of_snoc
    obtain ⟨hlen, hheld⟩ := h.opened prefs hopen
    cases hcall
    have hblock := refLz4fBlock_length (show List UInt8 from W.cctx)
    rw [hheld] at hblock
    change W.log.outputs.length + (refLz4fBlock (show List UInt8 from W.cctx) ++
      [0, 0, 0, 0, 0x56, 0x74, 0x0D, 0x55]).length ≤ lz4fWorst (W.log.payload.length + 0)
    rwa [hlen, List.length_append, hheld]

theorem refLz4fWriter_framed {W₀ W : FrameWriter refLz4fWriter} (h : W₀.Steps W)
    (hstart : W₀.log = []) (hflushed : W.log.Unflushed) : RefFramed W := by
  induction h with
  | refl =>
    constructor
    · rintro prefs ⟨header, inner, hlog, -⟩
      rw [hstart] at hlog
      cases hlog
    · rintro prefs ⟨log', tail, hlog, -⟩
      rw [hstart] at hlog
      exact absurd hlog.symm (by simp)
  | tail _ hstep ih =>
    cases hstep with
    | deliver n => exact ⟨(ih hflushed).opened, (ih hflushed).whole⟩
    | @call c bytes z hstage hcall =>
      have hbefore := fun d hd => hflushed d (List.mem_append_left _ hd)
      exact refLz4fWriter_call (ih hbefore) (hflushed (c, bytes) (by simp)) hcall
    | @failed c code z hstage hcall => cases c <;> cases hcall

theorem refLz4fWriter_stores : Lz4fStores refLz4fWriter where
  le := by
    intro z prefs W hz hsteps horder hflushed
    cases hz
    have hframed := refLz4fWriter_framed hsteps rfl hflushed
    rcases horder with hopen | hwhole
    · rw [(hframed.opened prefs hopen).1]
      unfold lz4fWorst
      omega
    · exact hframed.whole prefs hwhole

/-- Libraries that compress, or refuse to. -/
def Libraries.refWriters : Libraries where
  miniz := ⟨refStore, refInflate fixedA⟩
  zstd := refZstd zstdA
  lz4f := refLz4fWriter
  lz4 := refLz4

/-- 256 TiB and the bound of a frame is 27 bytes. -/
theorem compressBound_wraps : ¬ ∀ (K : Libraries) (c : Builtin) (_ : K.Bounded c) (level : ℤ)
    (_ : checkLevel (K.codec c) level = .ok) (n : ℕ) (_ : n < wordSize),
    K.BoundCovers (K.codec c).codec level n := by
  intro hall
  have hcovers := hall Libraries.refWriters .lz4Frame refLz4fWriter_stores levelDefault rfl (2 ^ 48)
    (by norm_num)
  have hle := (hcovers 27 rfl).1
  norm_num at hle

/-- 64 KiB of any bytes in a frame, and in a gzip member. -/
theorem compressBound_exact_block :
    (Libraries.refWriters.BoundCovers codecLz4Frame levelDefault 65536 ↔
      Counted codecLz4Frame 65536) ∧
    ∀ b, Libraries.refWriters.compressBound codecGzip 9 65536 = .ok b →
      worstSize codecGzip 65536 ≤ b → ∀ (opts : EncoderOpts) (src : List UInt8) (dst : Option ℕ),
        opts.codec = codecGzip → opts.level = 9 → src.length = 65536 →
          (compressOne Libraries.refWriters.lookup opts src dst b).1 ≠ .errOutputLimit :=
  ⟨(compressBound_exact (K := Libraries.refWriters) (c := .lz4Frame) refLz4fWriter_stores rfl
      (by norm_num)).1,
    (compressBound_exact (K := Libraries.refWriters) (c := .gzip) ⟨refStoreStores⟩ rfl
      (by norm_num)).2⟩

end Zukomp
