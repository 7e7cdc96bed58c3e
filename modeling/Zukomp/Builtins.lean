import Zukomp.Block.Renewal
import Zukomp.Deflate.Delivery
import Zukomp.Deflate.Renewal
import Zukomp.Frames.Renewal

/-! # Resets of the built-in codecs

Whatever a handle has been through, a reset that succeeds leaves one that no caller can tell
from a new one.
-/

namespace Zukomp

open Library

/-- The libraries that the built-in codecs are made over. -/
structure Libraries where
  miniz : Miniz
  zstd : Zstd
  lz4f : Lz4f
  lz4 : Lz4

/-- The codecs that come with the library. -/
inductive Builtin where
  | identity | deflateRaw | zlib | gzip | zstd | lz4Frame | lz4Block
  deriving DecidableEq

namespace Libraries

def codecs (K : Libraries) : List CodecVtable :=
  [identityCodec, deflateRawCodec K.miniz, zlibCodec K.miniz, gzipCodec K.miniz,
    zstdCodec K.zstd, lz4FrameCodec K.lz4f, lz4BlockCodec K.lz4]

def codec (K : Libraries) : Builtin → CodecVtable
  | .identity => identityCodec
  | .deflateRaw => deflateRawCodec K.miniz
  | .zlib => zlibCodec K.miniz
  | .gzip => gzipCodec K.miniz
  | .zstd => zstdCodec K.zstd
  | .lz4Frame => lz4FrameCodec K.lz4f
  | .lz4Block => lz4BlockCodec K.lz4

/-- A decoder's library restores, when reset, the state it starts in. -/
def DecoderResets (K : Libraries) : Builtin → Type
  | .deflateRaw | .zlib | .gzip => K.miniz.inflate.Restarts
  | .zstd => K.zstd.DecoderResets
  | .lz4Frame => K.lz4f.DecoderResets
  | .identity | .lz4Block => Unit

/-- What an encoder's reset leaves to its library. -/
def EncoderResets (K : Libraries) : Builtin → Type
  | .deflateRaw | .zlib | .gzip => K.miniz.deflate.Restarts
  | .zstd => K.zstd.EncoderResets
  | .lz4Frame => K.lz4f.EncoderResets
  | .identity | .lz4Block => Unit

/-- The library's context will be as good as a new one, once reset to the level. -/
def EncoderResets.Clean {K : Libraries} :
    {b : Builtin} → K.EncoderResets b → ℤ → (K.codec b).Enc → Prop
  | .zstd, R, level, s => Zstd.EncoderResets.Clean R (zstdLevelOf level) (ZstdEncoder.cctx s)
  | .lz4Frame, R, level, s => Lz4f.EncoderResets.Clean R (lz4Level level) (Lz4fEncoder.cctx s)
  | .identity, _, _, _ | .deflateRaw, _, _, _ | .zlib, _, _, _ | .gzip, _, _, _
  | .lz4Block, _, _, _ => True

variable {K : Libraries} {v : CodecVtable}

theorem mem_codecs {v : CodecVtable} : v ∈ K.codecs ↔ ∃ b, v = K.codec b := by
  simp only [codecs, List.mem_cons, List.not_mem_nil, or_false]
  constructor
  · rintro (h | h | h | h | h | h | h)
    · exact ⟨.identity, h⟩
    · exact ⟨.deflateRaw, h⟩
    · exact ⟨.zlib, h⟩
    · exact ⟨.gzip, h⟩
    · exact ⟨.zstd, h⟩
    · exact ⟨.lz4Frame, h⟩
    · exact ⟨.lz4Block, h⟩
  · rintro ⟨b, rfl⟩
    cases b <;> simp [codec]

def decoderRenewal : {b : Builtin} → K.DecoderResets b → DecoderRenewal (K.codec b)
  | .identity, _ => identityDecoderRenewal
  | .deflateRaw, R => deflateDecoderRenewal .none codecDeflateRaw R
  | .zlib, R => deflateDecoderRenewal .zlib codecZlib R
  | .gzip, R => deflateDecoderRenewal .gzip codecGzip R
  | .zstd, R => zstdDecoderRenewal R
  | .lz4Frame, R => lz4FrameDecoderRenewal R
  | .lz4Block, _ => lz4BlockDecoderRenewal K.lz4

def encoderRenewal : {b : Builtin} → K.EncoderResets b → EncoderRenewal (K.codec b)
  | .identity, _ => identityEncoderRenewal
  | .deflateRaw, R => deflateEncoderRenewal .none codecDeflateRaw R
  | .zlib, R => deflateEncoderRenewal .zlib codecZlib R
  | .gzip, R => deflateEncoderRenewal .gzip codecGzip R
  | .zstd, R => zstdEncoderRenewal R
  | .lz4Frame, R => lz4FrameEncoderRenewal R
  | .lz4Block, _ => lz4BlockEncoderRenewal K.lz4

theorem encoderRenewal_clean {b : Builtin} (R : K.EncoderResets b) :
    (encoderRenewal R).Clean = R.Clean := by
  cases b <;> rfl

/-! ## Reference libraries -/

def ref : Libraries where
  miniz := refMiniz fixedA
  zstd := refZstd zstdA
  lz4f := refLz4f lz4fA
  lz4 := refLz4

def refMinizRestarts (c : Progressive UInt8) : (refInflate c).Restarts where
  Same := Eq
  At _ _ := True
  refl _ := rfl
  init_status _ := by simp [refInflate]
  init _ := trivial
  process_at _ _ _ _ := trivial
  reset_at _ := trivial
  restores _ _ _ := rfl
  process _ _ _ h := h ▸ ⟨rfl, rfl, rfl, rfl⟩
  reset h := h ▸ ⟨rfl, rfl⟩

end Libraries

/-! ## Decoders -/

/-- After any session, a reset that succeeds leaves a decoder that answers every sequence of
calls as a new one with its options does: the same statuses, bytes, cursors and counters. -/
theorem decoderReset_fresh {K : Libraries} {b : Builtin} (R : K.DecoderResets b)
    {lookup₀ : CodecId → Option CodecVtable} {opts₀ : DecoderOpts} {d₀ : Decoder (K.codec b)}
    (hnew₀ : decoderNew lookup₀ opts₀ = .ok ⟨K.codec b, d₀⟩) {s : Session (K.codec b)}
    (hs : Session.Reached d₀ s) {o : Option DecoderOpts} {d : Decoder (K.codec b)}
    (hreset : decoderReset s.dec o = (.ok, d)) {lookup : CodecId → Option CodecVtable}
    {d' : Decoder (K.codec b)}
    (hnew : decoderNew lookup (o.getD s.dec.opts) = .ok ⟨K.codec b, d'⟩)
    (calls : List (Buffer × Flush)) :
    answers decoderAnswer d calls = answers decoderAnswer d' calls :=
  (Libraries.decoderRenewal R).answers_reset hnew₀ hs hreset hnew calls

/-- A raw decoder cut in the body of the letter `a` and reset decodes it from the start. -/
theorem decoderReset_fresh_cut :
    let cut := Session.next (.start (rawDecoder fixedA 0)) (.process (.ofParts [0x4B] 1) .run)
    answers decoderAnswer (decoderReset cut.dec none).2 [(.ofParts fixedA.code 1, .finish)] =
      answers decoderAnswer (rawDecoder fixedA 0) [(.ofParts fixedA.code 1, .finish)] :=
  @decoderReset_fresh Libraries.ref .deflateRaw (Libraries.refMinizRestarts fixedA) _ _ _
    (rawDecoder_new fixedA 0) _ (Session.Run.new.call (.process (.ofParts [0x4B] 1) .run) trivial)
    none _ rfl _ _ (rawDecoder_new fixedA 0) _

/-! ## Encoders -/

theorem Encoding.Run.life {v : CodecVtable} {e₀ e : Encoder v} {level : ℤ}
    (h : EncoderLife e₀ level e) {x : Encoding v} (hx : Encoding.Run e x) :
    EncoderLife e₀ level x.enc :=
  hx.invariant (fun x => EncoderLife e₀ level x.enc) h fun _ buf mode ih => ih.process buf mode

/-- After any life, a reset that succeeds and finds the library's context clean leaves an encoder
that answers every sequence of calls as a new one at the level last asked for does. It finds it
so as long as there has been no call, and of the codecs other than zstd and lz4-frame always. A
zlib encoder then writes the header of the level its engine compresses at. -/
theorem encoderReset_fresh (K : Libraries) :
    (∀ {b : Builtin} (R : K.EncoderResets b) {lookup₀ : CodecId → Option CodecVtable}
      {opts₀ : EncoderOpts} {e₀ : Encoder (K.codec b)}
      (_ : encoderNew lookup₀ opts₀ = .ok ⟨K.codec b, e₀⟩) {level : ℤ} {e : Encoder (K.codec b)}
      (_ : EncoderLife e₀ level e),
      (b ≠ .zstd ∧ b ≠ .lz4Frame ∨ EncoderIdle e₀ e → ∀ l, R.Clean l e.state) ∧
      (∀ {o : Option EncoderOpts} {e' : Encoder (K.codec b)}
        (_ : R.Clean (levelAfterReset level o) e.state) (_ : encoderReset e o = (.ok, e')) {lookup : CodecId → Option CodecVtable}
        {opts : EncoderOpts} {f : Encoder (K.codec b)}
        (_ : encoderNew lookup opts = .ok ⟨K.codec b, f⟩)
        (_ : opts.level = levelAfterReset level o) (calls : List (Buffer × Flush)),
        answers encoderAnswer e' calls = answers encoderAnswer f calls)) ∧
    (∀ (R : K.miniz.deflate.Restarts) {lookup₀ : CodecId → Option CodecVtable}
      {opts₀ : EncoderOpts} {e₀ : Encoder (zlibCodec K.miniz)}
      (_ : encoderNew lookup₀ opts₀ = .ok ⟨zlibCodec K.miniz, e₀⟩) {level : ℤ}
      {e : Encoder (zlibCodec K.miniz)} (_ : EncoderLife e₀ level e) {o : Option EncoderOpts}
      {e' : Encoder (zlibCodec K.miniz)} (_ : encoderReset e o = (.ok, e'))
      {x : Encoding (zlibCodec K.miniz)} (_ : Encoding.Run e' x),
      ∃ flg, x.given.take 2 <+: [0x78, flg] ∧
        flg >>> 6 = flevelOf (resolvedLevel (levelAfterReset level o)) ∧
        ((0x78 : UInt8).toNat * 256 + flg.toNat) % 31 = 0 ∧ flg &&& 0x20 = 0 ∧
        R.At (resolvedLevel (levelAfterReset level o)) (DeflateState.mz x.enc.state)) := by
  constructor
  · intro b R lookup₀ opts₀ e₀ hnew₀ level e h
    rw [← Libraries.encoderRenewal_clean R]
    refine ⟨?_, fun hclean hreset _ _ _ hnew hlevel calls =>
      (Libraries.encoderRenewal R).answers_reset hnew₀ h hclean hreset hnew hlevel calls⟩
    rintro (⟨hzstd, hlz4⟩ | hidle)
    · cases b with
      | zstd => exact absurd rfl hzstd
      | lz4Frame => exact absurd rfl hlz4
      | _ => exact fun _ => trivial
    · exact (Libraries.encoderRenewal R).idle_clean hnew₀ hidle
  · intro R lookup₀ opts₀ e₀ hnew₀ level e h o e' hreset x hx
    have hfits {level : ℤ} {e : Encoder (zlibCodec K.miniz)} (h : EncoderLife e₀ level e) :
        Fits R .zlib true (resolvedLevel level) e.state :=
      ((deflateEncoderRenewal .zlib codecZlib R).life_living hnew₀ h).inv
    obtain ⟨reset, hv, heq, -, -⟩ := encoderReset_ok hreset
    have hliving := (deflateEncoderRenewal .zlib codecZlib R).life_living hnew₀ h
    cases hv
    have hheads := deflateReset_heads hliving.inv (congrArg Prod.fst heq)
    rw [← resolvedLevel_after, hliving.levelAfter o, show (deflateReset e.state
      (copyEncoderOpts (o.getD e.opts)).level).2 = e'.state from congrArg Prod.snd heq] at hheads
    obtain ⟨flg, hhdr, hlevel, hcheck, hdict⟩ :=
      zlibHeader_valid (resolvedLevel (levelAfterReset level o))
    have hat := (hfits (Encoding.Run.life (h.reset o hreset) hx)).at_
    have hbegins := (@encoding_heads _ _ _ codecZlib _ hheads _ hx).begins
    exact ⟨flg, hhdr ▸ hbegins, hlevel, hcheck, hdict, hat⟩

def zlibLevel (level : ℤ) : EncoderOpts where
  structSize := encoderOptsSize
  codec := codecZlib
  level := level
  flags := 0

def zlibRef : CodecId → Option CodecVtable := fun _ => some (zlibCodec Libraries.ref.miniz)

/-- A new zlib encoder over the reference engine. -/
def zlibEncoder (level : ℤ) : Encoder (zlibCodec Libraries.ref.miniz) where
  state := {
    mz := (⟨0, 0, false⟩ : RefInflate), mzCalled := false, encoder := true, wrap := .zlib, state := .header
    level := level, hdr := zlibHeader level ++ List.replicate 8 0, hdrLen := 2, hdrPos := 0
    tail := List.replicate 8 0, tailLen := 4, tailPos := 0, checksum := 1, uncompressed := 0
    gz := gzipHeaderInit, decFlags := 0, probeMagic := false }
  opts := zlibLevel level
  finished := false

/-! ## A context used again -/

/-- A text whose frame depends on the hash table it is compressed with. -/
def repeats : List UInt8 :=
  [0x62, 0x62, 0x62, 0x62, 0x62, 0x61, 0x62, 0x62, 0x62, 0x62, 0x61, 0x62, 0x61, 0x62, 0x62, 0x62,
    0x62, 0x61]

/-- Whether the context's hash table has been used, and the block it gathers. -/
structure TableCctx where
  used : Bool
  gathered : List UInt8
  deriving DecidableEq

/-- The frame's block with an empty hash table, and with that of an earlier frame: its entries
are out of reach, and so is the start of the block. -/
def repeatsBlock : Bool → List UInt8
  | false => [0x0F, 0x00, 0x00, 0x00, 0x10, 0x62, 0x01, 0x00, 0x12, 0x61, 0x05, 0x00, 0x60, 0x61,
      0x62, 0x62, 0x62, 0x62, 0x61]
  | true => [0x10, 0x00, 0x00, 0x00, 0x62, 0x62, 0x62, 0x62, 0x62, 0x62, 0x61, 0x05, 0x00, 0x60,
      0x61, 0x62, 0x62, 0x62, 0x62, 0x61]

/-- A liblz4 that knows how this text compresses. `LZ4F_compressBegin` leaves the hash table. -/
def tableLz4f : Lz4f where
  toFrameLib := refUnframe lz4fA .other
  createDctx := some (⟨0, 0⟩ : RefUnframe)
  resetDctx _ := (⟨0, 0⟩ : RefUnframe)
  Cctx := TableCctx
  createCctx := some ⟨false, []⟩
  begin z prefs :=
    if prefs = ⟨1, true, 18⟩ then
      (.ok [0x04, 0x22, 0x4D, 0x18, 0x4C, 0x40, 0x12, 0x00, 0x00, 0x00, 0x00, 0x00, 0x00, 0x00,
        0xF7], { z with gathered := [] })
    else (.error .other, z)
  update z input := (.ok [], { z with gathered := z.gathered ++ input })
  flush z := (.error .other, z)
  finish z :=
    if z.gathered = repeats then
      (.ok (repeatsBlock z.used ++ [0x00, 0x00, 0x00, 0x00, 0x30, 0x71, 0x90, 0x66]), ⟨true, []⟩)
    else (.error .other, z)

def Libraries.table : Libraries := { ref with lz4f := tableLz4f }

/-- An unused context begins as a new one does. -/
def tableResets : Libraries.table.EncoderResets .lz4Frame where
  Same := Eq
  Clean _ z := z = (⟨false, []⟩ : TableCctx)
  created _ h := (Option.some.inj h).symm
  begin _ h h' := by
    cases h
    cases h'
    exact ⟨rfl, rfl⟩
  update _ h := h ▸ ⟨rfl, rfl⟩
  flush h := h ▸ ⟨rfl, rfl⟩
  finish h := h ▸ ⟨rfl, rfl⟩

def tableEncoder : Encoder (Libraries.table.codec .lz4Frame) where
  state := (⟨⟨false, []⟩, levelDefault, lz4fPrefs levelDefault, false, false, false, []⟩ :
    Lz4fEncoder tableLz4f)
  opts := ⟨encoderOptsSize, codecLz4Frame, levelDefault, 0⟩
  finished := false

theorem tableEncoder_new : encoderNew (fun _ => some (Libraries.table.codec .lz4Frame))
    tableEncoder.opts = .ok ⟨Libraries.table.codec .lz4Frame, tableEncoder⟩ := rfl

def repeatsCall : Buffer × Flush := (.ofParts repeats 64, .finish)

/-- The text encoded, and encoded again after a reset: a new encoder's frame is a byte
shorter. -/
theorem encoderReset_keeps_table :
    let used := (encoderProcess tableEncoder repeatsCall.1 repeatsCall.2).2.1
    let reset := encoderReset used none
    encoderNew (fun _ => some (Libraries.table.codec .lz4Frame)) tableEncoder.opts =
        .ok ⟨Libraries.table.codec .lz4Frame, tableEncoder⟩ ∧
      EncoderLife tableEncoder levelDefault used ∧ reset.1 = .ok ∧
      (encoderProcess reset.2 repeatsCall.1 repeatsCall.2).2.2.dstPos = 43 ∧
      (encoderProcess tableEncoder repeatsCall.1 repeatsCall.2).2.2.dstPos = 42 ∧
      answers encoderAnswer reset.2 [repeatsCall] ≠ answers encoderAnswer tableEncoder [repeatsCall] := by
  refine ⟨tableEncoder_new, EncoderLife.new.process _ _, rfl, rfl, rfl, fun h => ?_⟩
  have hpos := congrArg (List.map fun r : Status × Buffer => r.2.dstPos) h
  exact absurd hpos (by decide)

/-- A zlib encoder at level 1, cut in the header, and then at level 9. An lz4-frame encoder that
has encoded nothing. -/
theorem encoderReset_fresh_relevelled :
    let cut := (encoderProcess (zlibEncoder 1) (.ofParts [] 1) .run).2.1
    let e := (encoderReset cut (some (zlibLevel 9))).2
    answers encoderAnswer e [(.ofParts [] 2, .run)] =
        answers encoderAnswer (zlibEncoder 9) [(.ofParts [] 2, .run)] ∧
      ∃ flg, ((Encoding.start e).next (.ofParts [] 2) .run).given.take 2 <+: [0x78, flg] ∧
        flg >>> 6 = flevelOf 9 ∧
      answers encoderAnswer (encoderReset tableEncoder none).2 [repeatsCall] =
        answers encoderAnswer tableEncoder [repeatsCall] := by
  have hlife : EncoderLife (zlibEncoder 1) 1
      (encoderProcess (zlibEncoder 1) (.ofParts [] 1) .run).2.1 :=
    EncoderLife.new.process (.ofParts [] 1) .run
  have hnew (level : ℤ) (h : level = 1 ∨ level = 9) : encoderNew zlibRef (zlibLevel level) =
      .ok ⟨zlibCodec Libraries.ref.miniz, zlibEncoder level⟩ := by
    obtain rfl | rfl := h <;> rfl
  obtain ⟨hanswers, hzlib⟩ := encoderReset_fresh Libraries.ref
  obtain ⟨hclean, hfresh⟩ :=
    @hanswers .zlib (Libraries.refMinizRestarts fixedA) _ _ _ (hnew 1 (.inl rfl)) _ _ hlife
  refine ⟨hfresh (o := some (zlibLevel 9)) (hclean (.inl (by decide)) _) rfl (hnew 9 (.inr rfl))
    rfl _, ?_⟩
  obtain ⟨flg, hhdr, hlevel, -⟩ := hzlib (Libraries.refMinizRestarts fixedA) (hnew 1 (.inl rfl)) hlife
    (o := some (zlibLevel 9)) rfl (Encoding.Run.new.call (.ofParts [] 2) .run)
  obtain ⟨htable, -⟩ := encoderReset_fresh Libraries.table
  obtain ⟨hidle, hfresh⟩ := @htable .lz4Frame tableResets _ _ _ tableEncoder_new _ _ .new
  exact ⟨flg, hhdr, hlevel, hfresh (o := none) (hidle (.inr .new) _) rfl tableEncoder_new rfl _⟩

end Zukomp
