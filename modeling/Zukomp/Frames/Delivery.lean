import Zukomp.Core.OneShot
import Zukomp.Frames.Streaming

/-! # What the framed decoders deliver

Every caller of a stream of frames is given the libraries' output in order, up to the
ceiling, and the end is classified by the ceiling alone.
-/

namespace Zukomp

open Library

variable {v : CodecVtable} {c : Coding UInt8} {d : Decoder v} {lookup : CodecId → Option CodecVtable}
  {opts : DecoderOpts} {chunks : List (List UInt8)} {fs : List (Coding UInt8)}
  {Valid : Coding UInt8 → Prop}

/-- A caller of `start` is given the text of `c` in order. One that fits the ceiling is given
all of it, and the stream ends unless another size is expected; one that does not is given
exactly as many bytes as the ceiling allows, and the status that crossing it means. -/
structure Delivers (c : Coding UInt8) (opts : DecoderOpts) (ws : Windows) (start : Feed v) :
    Prop where
  inOrder : ∀ f, Reaches (feedTurn ws) start f → c.Writes 0 f.written
  within : (∀ C status, opts.ceiling = some (C, status) → c.text.length ≤ C.toNat) →
    Returns (feedTurn ws) start ⟨if opts.hasExpected ∧ opts.expectedSize.toNat ≠ c.text.length then
      .errInvalidData else .streamEnd, c.text⟩
  capped : ∀ C status, opts.ceiling = some (C, status) → C.toNat < c.text.length →
    Returns (feedTurn ws) start ⟨status, c.text.take C.toNat⟩

/-- A decoder that keeps the contract without stalling or failing delivers. -/
theorem StreamDecoder.delivers (k : StreamDecoder v c) (hidle : k.Idles) (h : k.Standing d false 0 0)
    (hstall : ∀ p, ¬ k.Stall p) (hfails : ∀ s w mode, ¬ k.Fails s w mode)
    (hcode : chunks.flatten = c.code) (hne : chunks ≠ []) (ws : Windows) (room : ℕ) :
    Delivers c d.opts ws (Feed.start d room chunks) := by
  obtain ⟨r, hr, hfair⟩ := feed_fair ws hidle h hcode hne room fun f _ => hfails _ _ _
  refine ⟨fun f hf => ?_, fun hwithin => ?_, fun C status hc hlt => ?_⟩
  · obtain ⟨p, q, hfed⟩ := Fed.reaches ws hcode ⟨_, _, fed_start hidle h hcode hne room⟩ hf
    exact hfed.writes
  · cases hfair with
    | ended size within =>
      rwa [if_neg fun he => he.2 (size he.1)]
    | missized expected size within =>
      rwa [if_pos ⟨expected, size⟩]
    | capped ceiling spent writes owing =>
      have := hwithin _ _ ceiling
      rcases owing with hlt | ⟨-, p, -, hs⟩
      · omega
      · exact absurd hs (hstall p)
  · cases hfair with
    | ended size within =>
      have := within C status hc
      omega
    | missized expected size within =>
      have := within C status hc
      omega
    | @capped C' status' written ceiling spent writes owing =>
      obtain ⟨rfl, rfl⟩ := Prod.mk.inj (Option.some.inj (hc.symm.trans ceiling))
      have := writes.eq_take
      rw [List.drop_zero, spent] at this
      rwa [← this]

theorem StreamDecoder.standing_new (k : StreamDecoder v c)
    (hnew : decoderNew lookup opts = .ok ⟨v, d⟩) (hratio : d.opts.maxRatio = 0)
    (hat : k.At d.state false 0 0) : k.Standing d false 0 0 := by
  obtain ⟨hfin, -, hout⟩ := decoderNew_fresh hnew
  refine ⟨hat, hfin, hratio, fun C status _ => ?_⟩
  rw [hout]
  exact ⟨rfl, Nat.zero_le _⟩

theorem zstdDecoderNew_at {Z : Zstd} {o : DecoderOpts}
    (I : ZstdReads Z (zstdWindowLog o.maxOutput) Valid)
    (hfs : FramesKind.zstd.ValidFrames Valid o.flags fs) {s : ZstdDecoder Z}
    (hnew : zstdDecoderNew Z o = .ok s) :
    FramedAt I.toReadsFrames 1 .zstd o.flags fs [] s.toFramedState 0 0 := by
  unfold zstdDecoderNew zstdWindow at hnew
  cases hcreate : Z.createDCtx with
  | none => simp [hcreate] at hnew
  | some z =>
    cases hlog : Z.setWindowLogMax z (zstdWindowLog o.maxOutput) with
    | none => simp [hcreate, hlog] at hnew
    | some z' =>
      simp only [hcreate, hlog, Except.ok.injEq] at hnew
      rw [← hnew]
      exact framedInit_at hfs (I.opened hcreate hlog)

theorem zstdStream_start {Z : Zstd} {d : Decoder (zstdCodec Z)}
    (I : ZstdReads Z (zstdWindowLog d.opts.maxOutput) Valid)
    (hnew : decoderNew lookup opts = .ok ⟨zstdCodec Z, d⟩) (hratio : d.opts.maxRatio = 0)
    (hfs : FramesKind.zstd.ValidFrames Valid d.opts.flags fs) :
    (zstdStream I.toReadsFrames hfs).Standing d false 0 0 :=
  StreamDecoder.standing_new _ hnew hratio (zstdDecoderNew_at I hfs (decoderNew_ok hnew).2)

theorem lz4fDecoderNew_at {F : Lz4f} {o : DecoderOpts} (I : Lz4fReads F Valid)
    (hfs : FramesKind.lz4.ValidFrames Valid o.flags fs) {s : Lz4fDecoder F}
    (hnew : lz4fDecoderNew F o = .ok s) : FramedAt I.toReadsFrames 1 .lz4 o.flags fs [] s 0 0 := by
  unfold lz4fDecoderNew at hnew
  cases hcreate : F.createDctx with
  | none => simp [hcreate] at hnew
  | some z =>
    simp only [hcreate, Except.ok.injEq] at hnew
    rw [← hnew]
    exact framedInit_at hfs (I.opened hcreate)

theorem lz4fStream_start {F : Lz4f} {d : Decoder (lz4FrameCodec F)} (I : Lz4fReads F Valid)
    (hnew : decoderNew lookup opts = .ok ⟨lz4FrameCodec F, d⟩) (hratio : d.opts.maxRatio = 0)
    (hfs : FramesKind.lz4.ValidFrames Valid d.opts.flags fs) :
    (lz4fStream I.toReadsFrames hfs).Standing d false 0 0 :=
  StreamDecoder.standing_new _ hnew hratio (lz4fDecoderNew_at I hfs (decoderNew_ok hnew).2)

theorem chunks_of_frames_ne_nil {kind : FramesKind} {decFlags : UInt32}
    (hfs : kind.ValidFrames Valid decFlags fs)
    (hchunks : chunks.flatten = frameCodes fs) : chunks ≠ [] := by
  rintro rfl
  obtain ⟨c, post, rfl⟩ := List.exists_cons_of_ne_nil hfs.nonempty
  have hlong := (hfs.frames c (by simp)).long
  have := congrArg List.length hchunks
  simp [frameCodes] at this
  omega

/-! ## Ideal libraries -/

/-- A libzstd that decodes the valid frames ideally, with the decoder window cut to `log`. -/
structure ZstdUnframes (Z : Zstd) (log : ℕ) (Valid : Progressive UInt8 → Prop) extends
    Unframes Z.toFrameLib Valid where
  opened : ∀ {z z'}, Z.createDCtx = some z → Z.setWindowLogMax z log = some z' →
    ∀ c, Valid c → At c z' 0 0

/-- A liblz4 that decodes the valid frames ideally. -/
structure Lz4fUnframes (F : Lz4f) (Valid : Progressive UInt8 → Prop) extends
    Unframes F.toFrameLib Valid where
  opened : ∀ {z}, F.createDctx = some z → ∀ c, Valid c → At c z 0 0

def ZstdUnframes.zstdReads {Z : Zstd} {log : ℕ} {Valid : Progressive UInt8 → Prop}
    (I : ZstdUnframes Z log Valid) : ZstdReads Z log (Unframed Valid) where
  toReadsFrames := I.toUnframes.reads
  opened := by
    rintro z z' hcreate hlog _ ⟨f, hf, rfl, hsilent⟩
    exact ⟨f, hf, rfl, hsilent, I.opened hcreate hlog f hf⟩

def Lz4fUnframes.lz4fReads {F : Lz4f} {Valid : Progressive UInt8 → Prop} (I : Lz4fUnframes F Valid) :
    Lz4fReads F (Unframed Valid) where
  toReadsFrames := I.toUnframes.reads
  opened := by
    rintro z hcreate _ ⟨f, hf, rfl, hsilent⟩
    exact ⟨f, hf, rfl, hsilent, I.opened hcreate f hf⟩

/-- Every caller of zstd or lz4-frame is given the frames' text. -/
theorem frames_delivered (chunks : List (List UInt8)) (ws : Windows) (room : ℕ)
    (lookup : CodecId → Option CodecVtable) (opts : DecoderOpts)
    (fs : List (Coding UInt8)) (hchunks : chunks.flatten = frameCodes fs)
    (Valid : Progressive UInt8 → Prop) :
    (∀ (Z : Zstd) (d : Decoder (zstdCodec Z)),
      ZstdUnframes Z (zstdWindowLog d.opts.maxOutput) Valid →
      decoderNew lookup opts = .ok ⟨zstdCodec Z, d⟩ → d.opts.maxRatio = 0 →
      FramesKind.zstd.ValidFrames (Unframed Valid) d.opts.flags fs →
        Delivers (framesCoding fs []) d.opts ws (Feed.start d room chunks)) ∧
    (∀ (F : Lz4f) (d : Decoder (lz4FrameCodec F)), Lz4fUnframes F Valid →
      decoderNew lookup opts = .ok ⟨lz4FrameCodec F, d⟩ → d.opts.maxRatio = 0 →
      FramesKind.lz4.ValidFrames (Unframed Valid) d.opts.flags fs →
        Delivers (framesCoding fs []) d.opts ws (Feed.start d room chunks)) := by
  have hcode : chunks.flatten = (framesCoding fs []).code := by
    rw [hchunks]
    simp [framesCoding, frameCodes]
  constructor
  · intro Z d I hnew hratio hfs
    exact (zstdStream I.zstdReads.toReadsFrames hfs).delivers I.toUnframes.reads_tireless
      (zstdStream_start I.zstdReads hnew hratio hfs)
      (fun _ h => h) (fun _ _ _ h => h) hcode (chunks_of_frames_ne_nil hfs hchunks) ws room
  · intro F d I hnew hratio hfs
    exact (lz4fStream I.lz4fReads.toReadsFrames hfs).delivers I.toUnframes.reads_tireless
      (lz4fStream_start I.lz4fReads hnew hratio hfs)
      (fun _ h => h) (fun _ _ _ h => h) hcode (chunks_of_frames_ne_nil hfs hchunks) ws room

/-! ## Two frames of each kind -/

def refZstdUnframes (c : Progressive UInt8) (log : ℕ) : ZstdUnframes (refZstd c) log (· = c) where
  toUnframes := refUnframes c ZstdError.other
  opened := by
    rintro _ _ ⟨⟩ ⟨⟩ _ rfl
    exact ⟨rfl, rfl, Nat.zero_le _, Nat.zero_le _⟩

def refLz4fUnframes (c : Progressive UInt8) : Lz4fUnframes (refLz4f c) (· = c) where
  toUnframes := refUnframes c Lz4fError.other
  opened := by
    rintro _ ⟨⟩ _ rfl
    exact ⟨rfl, rfl, Nat.zero_le _, Nat.zero_le _⟩

/-- Options that expect `n` bytes of concatenated frames. -/
def framedOpts (codec : CodecId) (n : UInt64) : DecoderOpts :=
  { structSize := decoderOptsSize, codec := codec, maxOutput := 0, maxRatio := 0
    flags := decConcatMembers ||| decExpectedSize, expectedSize := n }

def framedDecoder (v : CodecVtable) (state : v.Dec) (n : UInt64) : Decoder v :=
  { state := state, opts := framedOpts v.codec n, finished := false, totalIn := 0, totalOut := 0 }

def zstdDecoderA (n : UInt64) : Decoder (zstdCodec (refZstd zstdA)) :=
  framedDecoder (zstdCodec (refZstd zstdA))
    (⟨⟨(⟨0, 0⟩ : RefUnframe), framesInit .zstd (decConcatMembers ||| decExpectedSize)⟩, 0⟩ :
      ZstdDecoder (refZstd zstdA)) n

def lz4fDecoderA (n : UInt64) : Decoder (lz4FrameCodec (refLz4f lz4fA)) :=
  framedDecoder (lz4FrameCodec (refLz4f lz4fA))
    (⟨(⟨0, 0⟩ : RefUnframe), framesInit .lz4 (decConcatMembers ||| decExpectedSize)⟩ :
      Lz4fDecoder (refLz4f lz4fA)) n

theorem zstdDecoderA_new :
    decoderNew (fun _ => some (zstdCodec (refZstd zstdA))) (framedOpts codecZstd 2) =
      .ok ⟨zstdCodec (refZstd zstdA), zstdDecoderA 2⟩ := rfl

theorem lz4fDecoderA_new :
    decoderNew (fun _ => some (lz4FrameCodec (refLz4f lz4fA))) (framedOpts codecLz4Frame 1) =
      .ok ⟨lz4FrameCodec (refLz4f lz4fA), lz4fDecoderA 1⟩ := rfl

theorem validFrames_replicate {kind : FramesKind} {c : Coding UInt8}
    (hframe : kind.ValidFrame Valid c) (decFlags : UInt32)
    (hflag : decFlags &&& decConcatMembers ≠ 0) (n : ℕ) :
    kind.ValidFrames Valid decFlags (List.replicate (n + 1) c) where
  frames c' hc' := by
    obtain rfl := List.eq_of_mem_replicate hc'
    exact hframe
  nonempty := by simp
  single h := absurd h hflag

theorem zstdA_valid : FramesKind.zstd.ValidFrame (Unframed (· = zstdA)) zstdA.toCoding :=
  ⟨⟨zstdA, rfl, rfl, rfl⟩, by decide, by decide⟩

theorem lz4fA_valid : FramesKind.lz4.ValidFrame (Unframed (· = lz4fA)) lz4fA.toCoding :=
  ⟨⟨lz4fA, rfl, rfl, rfl⟩, by decide, by decide⟩

/-- A caller with one byte of room at a time, its second buffer beginning inside the magic of
the second frame. -/
theorem frames_delivered_twice :
    Returns (feedTurn byteWindows) (Feed.start (zstdDecoderA 2) 1
        [zstdA.code ++ [0x28, 0xB5], [0x2F, 0xFD] ++ zstdA.code.drop 4])
      ⟨.streamEnd, [0x61, 0x61]⟩ ∧
    Returns (feedTurn byteWindows) (Feed.start (lz4fDecoderA 1) 1
        [lz4fA.code ++ [0x04, 0x22], [0x4D, 0x18] ++ lz4fA.code.drop 4])
      ⟨.errInvalidData, [0x61]⟩ := by
  have hflag : (decConcatMembers ||| decExpectedSize) &&& decConcatMembers ≠ 0 := by decide
  have hz := (frames_delivered [zstdA.code ++ [0x28, 0xB5], [0x2F, 0xFD] ++ zstdA.code.drop 4] byteWindows 1
    _ _ [zstdA.toCoding, zstdA.toCoding] rfl _).1 _ _ (refZstdUnframes zstdA _) zstdDecoderA_new rfl
    (validFrames_replicate zstdA_valid _ hflag 1)
  have hl := (frames_delivered [lz4fA.code ++ [0x04, 0x22], [0x4D, 0x18] ++ lz4fA.code.drop 4] byteWindows 1
    _ _ [lz4fA.toCoding, lz4fA.toCoding] rfl _).2 _ _ (refLz4fUnframes lz4fA) lz4fDecoderA_new rfl
    (validFrames_replicate lz4fA_valid _ hflag 1)
  refine ⟨hz.within fun C status hc => ?_, hl.capped 1 .errInvalidData (by decide) (by decide)⟩
  have hceil : (zstdDecoderA 2).opts.ceiling = some (2, .errInvalidData) := by decide
  obtain ⟨rfl, -⟩ := Prod.mk.inj (Option.some.inj (hceil.symm.trans hc))
  decide

end Zukomp
