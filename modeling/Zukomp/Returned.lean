import Zukomp.Block.Sending
import Zukomp.Deflate.RoundTrip
import Zukomp.Frames.Written
import Zukomp.Limited
import Zukomp.Package.Detection
import Zukomp.Served

/-! # What the built-in encoders write is read back

A payload that comes in one slice is written as a valid stream of its codec, which a whole-buffer
decoding gives back.
-/

namespace Zukomp

open Library

/-! ## identity -/

theorem identityEncodes_same {lookup : CodecId → Option CodecVtable} {opts : EncoderOpts}
    {e : Encoder identityCodec} (hnew : encoderNew lookup opts = .ok ⟨identityCodec, e⟩) {n : ℕ}
    {src b : List UInt8} (h : Encoding.EncodesBy (OneSlice n) e src b) : b = src := by
  obtain ⟨-, -, hopen⟩ := encoderNew_ok hnew
  have hstep {s : Unit} {src x y : List UInt8} (w : Window) (hsame : y = x)
      (hall : x ++ w.input = src) : ∃ u o, @Makes identityCodec (fun _ _ x y => y = x)
        (fun src b => b = src) src x y w (identityProcess s w .finish) u o := by
    refine ⟨_, _, (identityProcess_moved w .finish).eq, fun _ _ => by rw [hsame], fun hend => ?_⟩
    have hleft : w.input.drop (min w.input.length w.room) = [] := by
      by_contra hne
      have hst : (identityProcess () w .finish).1 = .needOutput := if_pos hne
      cases hst.symm.trans hend
    have htake : w.input.take (min w.input.length w.room) = w.input := by
      have := List.take_append_drop (min w.input.length w.room) w.input
      rwa [hleft, List.append_nil] at this
    rw [htake, hsame, hall]
    exact ⟨rfl, rfl⟩
  refine encodesBy_made identityCodec_encodes hopen ?_ hstep h
  exact fun _ _ => rfl

/-! ## lz4-block -/

section Lz4Block

variable {Z : Lz4}

/-- An encoder of one block. -/
inductive Lz4bSending (Z : Lz4) (level : ℤ) (s : Lz4bState) (src x y : List UInt8) : Prop
  | open_ (encoder : s.encoder = true) (same : s.level = level) (done : s.done = false)
      (stage : s.stage = []) (input : s.input = []) (taken : x = []) (given : y = [])
      (word : src.length < wordSize) : Lz4bSending Z level s src x y
  | gives (done : s.done = true) (taken : x = src)
      (block : lz4bBlock Z level src = .ok (y ++ s.stage)) : Lz4bSending Z level s src x y

theorem lz4bEncoderProcess_makes (L : Lz4Blocks Z) {level : ℤ} {s : Lz4bState} {src x y : List UInt8}
    (w : Window) (h : Lz4bSending Z level s src x y) (hall : x ++ w.input = src) :
    ∃ u o, Makes (v := lz4BlockCodec Z) (Lz4bSending Z level)
      (fun src b => lz4bBlock Z level src = .ok b) src x y w (lz4bEncoderProcess Z s w .finish) u o := by
  cases h with
  | open_ encoder same done stage input taken given word =>
    subst taken given
    have hsrc : s.input ++ w.input = src := by
      rw [input]
      exact hall
    have hlen := congrArg List.length hsrc
    rw [List.length_append] at hlen
    have hanswer := lz4bEncoder_finishes L (w := w) encoder done stage (by simp [input]) (by omega)
    rw [hsrc, same] at hanswer
    cases hblock : lz4bBlock Z level src with
    | error st =>
      rw [hblock] at hanswer
      generalize lz4bEncoderProcess Z s w .finish = r at hanswer
      cases hanswer with
      | @refused _ s' u read =>
      have herr : st = .errInvalidArgument ∨ st = .errInternal := lz4bBlock_error hblock
      refine ⟨_, [], by rw [Window.put_nil], fun hok => ?_, fun hend => ?_⟩
      · rcases herr with rfl | rfl <;> cases hok
      · rcases herr with rfl | rfl <;> cases hend
    | ok b =>
      rw [hblock] at hanswer
      generalize lz4bEncoderProcess Z s w .finish = r at hanswer
      cases hanswer with
      | @decoded _ s' done' stage' =>
      have hsplit : b.take w.room ++ b.drop w.room = b := List.take_append_drop ..
      refine ⟨w.input.length, b.take w.room, rfl, fun _ _ => ?_, fun hend => ?_⟩
      · refine .gives done' (by rw [List.take_length]; exact hall) ?_
        rw [stage', List.nil_append, hsplit]
        exact hblock
      · rw [List.take_length]
        refine ⟨hall, ?_⟩
        have hdrop : b.drop w.room = [] := by
          by_contra hne
          rw [show (if b.drop w.room = [] then Status.streamEnd else .needOutput) = .needOutput
            from if_neg hne] at hend
          cases hend
        rw [hdrop, List.append_nil] at hsplit
        rw [List.nil_append, hsplit]
        exact hblock
  | gives done taken block =>
    have hproc : lz4bEncoderProcess Z s w .finish = lz4bDrain s w := if_pos done
    obtain ⟨st, stage, o, heq, hrest, hend⟩ := lz4bDrain_eq s w
    have hnil : w.input = [] := by
      rw [taken] at hall
      exact List.append_right_eq_self.mp hall
    rw [hproc, heq]
    refine ⟨0, o, by rw [Window.take_zero], fun _ _ => ?_, fun hst => ?_⟩
    · rw [List.take_zero, List.append_nil]
      exact .gives done taken (by rw [List.append_assoc, hrest]; exact block)
    · rw [List.take_zero, List.append_nil]
      refine ⟨taken, ?_⟩
      rw [hend hst, List.append_nil] at hrest
      rw [hrest]
      exact block

theorem lz4bEncodes_one (L : Lz4Blocks Z) {lookup : CodecId → Option CodecVtable}
    {opts : EncoderOpts} {e : Encoder (lz4BlockCodec Z)}
    (hnew : encoderNew lookup opts = .ok ⟨lz4BlockCodec Z, e⟩) {n : ℕ} (hn : n < wordSize)
    {src b : List UInt8} (h : Encoding.EncodesBy (OneSlice n) e src b) :
    src.length ≤ lz4MaxInputSize ∧ L.Block b src := by
  obtain ⟨hopts, hstate, hopen⟩ := encoderNew_ok hnew
  have hblock : lz4bBlock Z opts.level src = .ok b := by
    refine encodesBy_made (lz4BlockCodec_encodes Z) hopen (fun src hlen => ?_)
      (fun w h hall => lz4bEncoderProcess_makes L w h hall) h
    rw [← Except.ok.inj hstate, hopts]
    exact .open_ rfl rfl rfl rfl rfl rfl rfl (hlen.trans_lt hn)
  unfold lz4bBlock at hblock
  split_ifs at hblock with hlong
  obtain ⟨b', hb', hvalid, -⟩ := lz4bCompress_block L opts.level (Nat.not_lt.mp hlong)
  rw [hb'] at hblock
  cases hblock
  exact ⟨Nat.not_lt.mp hlong, hvalid⟩

end Lz4Block

/-! ## The built-in codecs -/

namespace Libraries

variable {K : Libraries}

/-- A codec's own library writes what it reads. -/
def Decodes.Writes : {b : Builtin} → K.Decodes b → Type
  | .identity, _ => Unit
  | .deflateRaw, D | .zlib, D | .gzip, D => K.miniz.deflate.Deflates D.Body
  | .zstd, D => K.zstd.Sends D.Frame
  | .lz4Frame, D => K.lz4f.Sends D.Frame
  | .lz4Block, _ => Unit

/-- The window of a frame whose size libzstd was told is within that of a decoder whose limit admits
the text. -/
theorem zstdFrameWindow_le {maxOutput : UInt64} {n : ℕ}
    (h : maxOutput = 0 ∨ n ≤ maxOutput.toNat) : zstdFrameWindow n ≤ 2 ^ zstdWindowLog maxOutput := by
  obtain ⟨-, hnone, hmin⟩ := zstdWindowLog_spec maxOutput
  unfold zstdFrameWindow
  rcases h with hzero | hle
  · rw [hnone hzero]
    exact max_le (min_le_right ..) (by norm_num [zstdLibraryWindow])
  · refine le_trans (max_le ?_ ?_) hmin
    · exact min_le_min_right _ (hle.trans (le_max_left ..))
    · exact le_min (le_max_of_le_right (by norm_num)) (by norm_num [zstdLibraryWindow])

theorem covered_stream {wrap : WrapKind} {Body : Progressive UInt8 → Prop} {level : ℤ}
    {x z : List UInt8} (h : Covered Body wrap level x z) (decFlags : UInt32) :
    ∃ ms, wrap.ValidStream Body decFlags ms ∧ (streamCoding ms).code = z ∧
      (streamCoding ms).text = x ∧ wrap.headOf level <+: z := by
  obtain ⟨c, hbody, rfl, rfl⟩ := h
  refine ⟨[wrap.member level c], ⟨fun m hm => ?_, by simp, fun _ => rfl⟩, by simp [streamCoding],
    by simp [streamCoding], List.prefix_append ..⟩
  obtain rfl := List.mem_singleton.mp hm
  exact ⟨wrap.validHead_headOf level, hbody, rfl⟩

theorem zlibHead_marks {head z : List UInt8} (hhead : WrapKind.zlib.ValidHead head)
    (hz : head <+: z) : Builtin.Marks .zlib z := by
  obtain ⟨cmf, flg, rfl, hcm, hcinfo, hcheck, hdict⟩ := hhead
  obtain ⟨rest, rfl⟩ := hz
  change zlibSniff (cmf :: flg :: rest) = true
  have hok : zlibCheckHeader (cmf :: flg :: rest) = .ok :=
    zlibCheckHeader_valid rfl hcm hcinfo hcheck hdict
  rw [zlibSniff, if_neg (by simp), hok]
  rfl

theorem gzipHead_marks {head z : List UInt8} (hhead : WrapKind.gzip.ValidHead head)
    (hz : head <+: z) : Builtin.Marks .gzip z := by
  obtain ⟨g, rfl⟩ := hhead
  refine List.IsPrefix.trans ?_ hz
  exact List.prefix_append gzipMagic _

theorem frame_stream {kind : FramesKind} {Valid : Coding UInt8 → Prop}
    {f : Coding UInt8} (h : kind.ValidFrame Valid f) (decFlags : UInt32) :
    kind.ValidFrames Valid decFlags [f] ∧ (framesCoding [f] []).code = f.code ∧
      (framesCoding [f] []).text = f.text := by
  refine ⟨⟨fun c hc => List.mem_singleton.mp hc ▸ h, by simp, fun _ => rfl⟩, ?_, ?_⟩
  · simp [framesCoding]
  · simp [framesCoding]

/-- What an encoder writes of a payload that comes in one slice is a valid stream of it, under every
limit that admits the payload: for the DEFLATE family if miniz can be shown the payload whole, for
lz4-block if the block is no longer than liblz4's largest input. -/
theorem Decodes.Writes.stream {b : Builtin} {D : K.Decodes b} (W : D.Writes)
    {lookup : CodecId → Option CodecVtable} {opts : EncoderOpts} {e : Encoder (K.codec b)}
    (hnew : encoderNew lookup opts = .ok ⟨K.codec b, e⟩) {n : ℕ} {x z : List UInt8}
    (h : Encoding.EncodesBy (OneSlice n) e x z) (hn : n < wordSize)
    (hview : b.Stalls → n ≤ mzClamp) (hblock : b = .lz4Block → z.length ≤ lz4MaxInputSize)
    {maxOutput : UInt64} (hadmits : maxOutput = 0 ∨ x.length ≤ maxOutput.toNat)
    (decFlags : UInt32) :
    ∃ c, D.Stream maxOutput decFlags c ∧ (b = .lz4Block → Lz4bFits maxOutput c) ∧ c.code = z ∧
      c.text = x ∧ (b.Detectable → b.Marks z) := by
  have hshown {wrap : WrapKind} {codec : CodecId} {e : Encoder (deflateVtable K.miniz codec wrap)}
      {Body : Progressive UInt8 → Prop} (D : K.miniz.deflate.Deflates Body)
      (hnew : encoderNew lookup opts = .ok ⟨deflateVtable K.miniz codec wrap, e⟩) (hn : n ≤ mzClamp)
      (h : Encoding.EncodesBy (OneSlice n) e x z) :
      Covered Body wrap (DeflateState.level e.state) x z := by
    obtain ⟨offered, s, buf, hs, hoffer, hmeets, hend⟩ := h
    exact encodesBy_covered D hnew ⟨offered, s, buf,
      hs.mono fun _ _ _ hp => hp.within.trans hn, hoffer, hmeets.within.trans hn, hend⟩
  cases b with
  | identity =>
    obtain rfl := identityEncodes_same hnew h
    exact ⟨⟨z, z⟩, rfl, nofun, rfl, rfl, False.elim⟩
  | deflateRaw =>
    obtain ⟨ms, hms, hcode, htext, -⟩ := covered_stream (hshown W hnew (hview trivial) h) decFlags
    exact ⟨_, ⟨ms, hms, rfl⟩, nofun, hcode, htext, False.elim⟩
  | zlib =>
    obtain ⟨ms, hms, hcode, htext, hhead⟩ :=
      covered_stream (hshown W hnew (hview trivial) h) decFlags
    exact ⟨_, ⟨ms, hms, rfl⟩, nofun, hcode, htext,
      fun _ => zlibHead_marks (WrapKind.zlib.validHead_headOf _) hhead⟩
  | gzip =>
    obtain ⟨ms, hms, hcode, htext, hhead⟩ :=
      covered_stream (hshown W hnew (hview trivial) h) decFlags
    exact ⟨_, ⟨ms, hms, rfl⟩, nofun, hcode, htext,
      fun _ => gzipHead_marks (WrapKind.gzip.validHead_headOf _) hhead⟩
  | zstd =>
    obtain ⟨f, hf, rfl, rfl, hmagic⟩ := zstdEncodes_frame W hnew h
    obtain ⟨hfs, hcode, htext⟩ := frame_stream (hf _ (zstdFrameWindow_le hadmits)) decFlags
    exact ⟨_, ⟨_, hfs, rfl⟩, nofun, hcode, htext, fun _ => hmagic⟩
  | lz4Frame =>
    obtain ⟨f, hf, rfl, rfl, hmagic⟩ := lz4fEncodes_frame W hnew h
    obtain ⟨hfs, hcode, htext⟩ := frame_stream hf decFlags
    exact ⟨_, ⟨_, hfs, rfl⟩, nofun, hcode, htext, fun _ => hmagic⟩
  | lz4Block =>
    obtain ⟨hlen, hvalid⟩ := lz4bEncodes_one D hnew hn h
    have hint : x.length ≤ intMax := hlen.trans (by norm_num [lz4MaxInputSize, intMax])
    exact ⟨⟨z, x⟩, hvalid, fun _ => ⟨hblock rfl, hint, hadmits⟩, rfl, rfl, False.elim⟩

end Libraries

/-! ## The round trip of the whole-buffer loop -/

/-- Whatever its state, the encoder only moves its window. -/
theorem lz4bEncoderProcess_moves {Z : Lz4} (s : Lz4bState) (w : Window) (mode : Flush) :
    ∃ u o, (lz4bEncoderProcess Z s w mode).2.2 = (w.take u).put o := by
  have hstays (w : Window) : ∃ u o, w = (w.take u).put o := ⟨0, [], by simp⟩
  have hdrains (s : Lz4bState) (w : Window) (u : ℕ) :
      ∃ u' o, (lz4bDrain s (w.take u)).2.2 = (w.take u').put o := by
    obtain ⟨st, stage, o, heq, -⟩ := lz4bDrain_eq s (w.take u)
    exact ⟨u, o, by rw [heq]⟩
  obtain ⟨st, u, hgather, -⟩ := lz4bGather_eq s w
  unfold lz4bEncoderProcess lz4bHold
  rw [hgather]
  split_ifs
  · have h := hdrains s w 0
    rwa [Window.take_zero] at h
  · cases st <;> exact ⟨u, [], by simp⟩
  · split
    · exact hstays w
    · exact ⟨_, _, rfl⟩
  · cases st
    case ok =>
      dsimp only
      split_ifs
      · exact ⟨u, [], by simp⟩
      · split
        · exact ⟨u, [], by simp⟩
        · exact hdrains _ w u
    all_goals exact ⟨u, [], by simp⟩

theorem Window.Advances.moves {w w' : Window} (h : Window.Advances w w') :
    ∃ u o, w' = (w.take u).put o := by
  obtain ⟨u, o, hm⟩ := h
  exact ⟨u, o, hm.eq⟩

theorem Libraries.encoder_moves (K : Libraries) (b : Builtin) :
    ∃ process, (K.codec b).encoderProcess = onBuffer process ∧
      ∀ s w mode, ∃ u o, (process s w mode).2.2 = (w.take u).put o := by
  cases b with
  | identity => exact ⟨identityProcess, rfl, fun _ w mode => ⟨_, _, (identityProcess_moved w mode).eq⟩⟩
  | deflateRaw => exact ⟨deflateProcess, rfl, fun s w mode => (deflateProcess_advances s w mode).moves⟩
  | zlib => exact ⟨deflateProcess, rfl, fun s w mode => (deflateProcess_advances s w mode).moves⟩
  | gzip => exact ⟨deflateProcess, rfl, fun s w mode => (deflateProcess_advances s w mode).moves⟩
  | zstd => exact ⟨zstdEncoderProcess, rfl, fun s w mode => (zstdEncoderProcess_advances s w mode).moves⟩
  | lz4Frame =>
    exact ⟨lz4fEncoderProcess, rfl, fun s w mode => (lz4fEncoderProcess_advances s w mode).moves⟩
  | lz4Block => exact ⟨lz4bEncoderProcess K.lz4, rfl, fun s w mode => lz4bEncoderProcess_moves s w mode⟩

namespace Libraries

variable {K : Libraries}

/-- What an encoding run needs of its source: one slice, which miniz can be shown whole. -/
structure OneView (b : Builtin) (r : RunOpts) : Prop where
  encode : r.encode = true
  slice : r.src.length ≤ r.inChunk
  inChunk : 0 < r.inChunk
  outChunk : 0 < r.outChunk
  word : r.src.length < wordSize
  view : b.Stalls → r.src.length ≤ mzClamp

/-- An encoding run that ends at the stream's end has made a valid stream of its source. -/
theorem Decodes.Writes.whole {b : Builtin} {D : K.Decodes b} (W : D.Writes) {lookup : CodecId → Option CodecVtable}
    {r : RunOpts} (hr : OneView b r) {e : Encoder (K.codec b)}
    (hnew : encoderNew lookup r.encoderOpts = .ok ⟨K.codec b, e⟩) {out : OutBuf}
    (h : RunsWhole lookup r .empty (.streamEnd, out))
    (hblock : b = .lz4Block → out.used.length ≤ lz4MaxInputSize) {maxOutput : UInt64}
    (hadmits : maxOutput = 0 ∨ r.src.length ≤ maxOutput.toNat) (decFlags : UInt32) :
    ∃ c, D.Stream maxOutput decFlags c ∧ (b = .lz4Block → Lz4bFits maxOutput c) ∧
      c.code = out.used ∧ c.text = r.src ∧ (b.Detectable → b.Marks out.used) := by
  have hin := hr.inChunk
  have hout := hr.outChunk
  rw [RunsWhole, if_neg (by omega), if_pos hr.encode] at h
  rw [hnew] at h
  obtain ⟨process, hv, hmoves⟩ := K.encoder_moves b
  exact W.stream hnew (whole_encodesBy hv hmoves hr.slice h) hr.word hr.view hblock hadmits decFlags

end Libraries

end Zukomp
