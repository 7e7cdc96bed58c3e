import Zukomp.Block.Decode
import Zukomp.Core.Encoding

/-! # The lz4-block round trip

The encoder applies liblz4's largest input to the payload, the decoder applies it to the
block. What the encoder makes decodes again exactly where the block keeps within it too.
-/

namespace Zukomp

open Library

variable {Z : Lz4}

/-! ## What an encoder's call does -/

/-- A call of the encoder that takes `x` and gives `o`. -/
inductive Lz4bEncoderCall (Z : Lz4) (s : Lz4bState) (x o : List UInt8) :
    Status → Lz4bState → Prop
  | drained {st : Status} {stage : List UInt8} (done : s.done = true) (none_ : x = [])
      (rest : o ++ stage = s.stage) (ended : st = .streamEnd → stage = []) :
      Lz4bEncoderCall Z s x o st { s with stage := stage }
  | gathered {st : Status} (open_ : s.done = false) (none_ : o = []) (more : st ≠ .streamEnd) :
      Lz4bEncoderCall Z s x o st { s with input := s.input ++ x }
  | produced {st : Status} {s' : Lz4bState} (open_ : s.done = false) (done : s'.done = true)
      (same : s'.encoder = s.encoder ∧ s'.level = s.level)
      (fits : (s.input ++ x).length ≤ lz4MaxInputSize)
      (block : lz4bCompress Z s.level (s.input ++ x) (lz4CompressBound (s.input ++ x).length) =
        some (o ++ s'.stage))
      (ended : st = .streamEnd → s'.stage = []) : Lz4bEncoderCall Z s x o st s'

theorem lz4bDrain_eq (s : Lz4bState) (w : Window) :
    ∃ st stage o, lz4bDrain s w = (st, { s with stage := stage }, w.put o) ∧
      o ++ stage = s.stage ∧ (st = .streamEnd → stage = []) := by
  refine ⟨_, _, _, rfl, List.take_append_drop .., fun h => ?_⟩
  by_contra hne
  rw [if_neg hne] at h
  cases h

theorem lz4bGather_eq (s : Lz4bState) (w : Window) :
    ∃ st u, lz4bGather s w = (st, { s with input := s.input ++ w.input.take u }, w.take u) ∧
      (st = .ok → u = w.input.length) ∧ st ≠ .streamEnd := by
  have hkeep (st : Status) (hst : st ≠ .streamEnd) (hok : st = .ok → w.input = []) :
      ∃ st' u, (st, s, w) =
          (st', { s with input := s.input ++ w.input.take u }, w.take u) ∧
        (st' = .ok → u = w.input.length) ∧ st' ≠ .streamEnd :=
    ⟨st, 0, by simp, fun h => by simp [hok h], hst⟩
  unfold lz4bGather
  by_cases hnil : w.input = []
  · rw [if_pos hnil]
    exact hkeep .ok (by simp) fun _ => hnil
  · rw [if_neg hnil]
    unfold sizeAdd
    by_cases hadd : wordSize - 1 - s.input.length < w.input.length
    · rw [if_pos hadd]
      exact hkeep .errMemory (by simp) (by simp)
    · rw [if_neg hadd]
      dsimp only
      by_cases hmax : lz4MaxInputSize < s.input.length + w.input.length
      · rw [if_pos hmax]
        refine hkeep _ ?_ ?_ <;> split_ifs <;> simp
      · rw [if_neg hmax]
        exact ⟨.ok, w.input.length, by simp, fun _ => rfl, by simp⟩

theorem lz4CompressBound_pos {n : ℕ} (h : lz4CompressBound n ≠ 0) : n ≤ lz4MaxInputSize := by
  unfold lz4CompressBound at h
  split_ifs at h
  · exact absurd rfl h
  · omega

/-- Every call drains the block, gathers input, or makes the block. -/
theorem lz4bEncoder_call (s : Lz4bState) (w : Window) (mode : Flush)
    (hstage : s.done = false → s.stage = []) :
    ∃ st s' u o, lz4bEncoderProcess Z s w mode = (st, s', (w.take u).put o) ∧
      Lz4bEncoderCall Z s (w.input.take u) o st s' := by
  unfold lz4bEncoderProcess
  by_cases hdone : s.done = true
  · rw [if_pos hdone]
    obtain ⟨st, stage, o, heq, hrest, hend⟩ := lz4bDrain_eq s w
    exact ⟨st, _, 0, o, by simpa using heq, .drained hdone (by simp) hrest hend⟩
  have hopen : s.done = false := by simpa using hdone
  obtain ⟨st, u, hgather, hall, hst⟩ := lz4bGather_eq s w
  rw [if_neg hdone]
  by_cases hmode : mode = .finish
  · rw [if_neg (by simp [hmode])]
    by_cases hone : s.input = [] ∧ w.input.length ≤ lz4MaxInputSize ∧
        0 < lz4CompressBound w.input.length ∧ lz4CompressBound w.input.length ≤ w.room
    · rw [if_pos hone]
      cases hblock : lz4bCompress Z s.level w.input (lz4CompressBound w.input.length) with
      | none =>
        have hsame : Lz4bEncoderCall Z s [] [] .errInternal { s with input := s.input ++ [] } :=
          .gathered hopen rfl (by simp)
        exact ⟨.errInternal, s, 0, [], by simp, by simpa using hsame⟩
      | some block =>
        refine ⟨_, _, w.input.length, block, rfl, .produced hopen rfl ⟨rfl, rfl⟩ ?_ ?_ ?_⟩
        · simpa [hone.1] using hone.2.1
        · simpa [hone.1, hstage hopen] using hblock
        · exact fun _ => hstage hopen
    · rw [if_neg hone, hgather]
      by_cases hok : st = .ok
      · subst hok
        obtain rfl := hall rfl
        dsimp only
        by_cases hbound : lz4CompressBound (s.input ++ w.input.take w.input.length).length = 0
        · rw [if_pos hbound]
          exact ⟨_, _, w.input.length, [], by rw [Window.put_nil], .gathered hopen rfl (by simp)⟩
        · rw [if_neg hbound]
          cases hblock : lz4bCompress Z s.level (s.input ++ w.input.take w.input.length)
              (lz4CompressBound (s.input ++ w.input.take w.input.length).length) with
          | none =>
            exact ⟨_, _, w.input.length, [], by rw [Window.put_nil],
              .gathered hopen rfl (by simp)⟩
          | some block =>
            obtain ⟨st, stage, o, heq, hrest, hend⟩ :=
              lz4bDrain_eq (Lz4bState.produce
                { s with input := s.input ++ w.input.take w.input.length } block)
                (w.take w.input.length)
            refine ⟨st, _, w.input.length, o, heq, .produced hopen rfl ⟨rfl, rfl⟩
              (lz4CompressBound_pos hbound) ?_ hend⟩
            have hrest : o ++ stage = block := hrest
            rw [hblock, hrest]
      · refine ⟨st, _, u, [], ?_, .gathered hopen rfl hst⟩
        rw [Window.put_nil]
        cases st <;> first | rfl | exact absurd rfl hok
  · rw [if_pos hmode, lz4bHold, hgather]
    by_cases hok : st = .ok
    · subst hok
      exact ⟨_, _, u, [], by rw [Window.put_nil], .gathered hopen rfl (by simp)⟩
    · refine ⟨st, _, u, [], ?_, .gathered hopen rfl hst⟩
      rw [Window.put_nil]
      cases st <;> first | rfl | exact absurd rfl hok

/-! ## Sessions of the encoder -/

/-- An encoder that has gathered what it took, or holds what it has not yet given of the block. -/
structure Lz4bEncoded (Z : Lz4) (level : ℤ) (s : Encoding (lz4BlockCodec Z)) : Prop where
  level_eq : s.enc.state.level = level
  gathers : s.enc.state.done = false → s.enc.finished = false ∧ s.enc.state.input = s.taken ∧
    s.given = [] ∧ s.enc.state.stage = []
  holds : s.enc.state.done = true → s.taken.length ≤ lz4MaxInputSize ∧
    lz4bCompress Z level s.taken (lz4CompressBound s.taken.length) =
      some (s.given ++ s.enc.state.stage) ∧ (s.enc.finished = true → s.enc.state.stage = [])

variable {level : ℤ} {s : Encoding (lz4BlockCodec Z)}

theorem Lz4bEncoded.next (h : Lz4bEncoded Z level s) (buf : Buffer) (mode : Flush) :
    Lz4bEncoded Z level (s.next buf mode) ∧
      ((encoderProcess s.enc buf mode).1 = .streamEnd → (s.next buf mode).enc.finished = true) := by
  have hlifted : (lz4BlockCodec Z).encoderProcess = onBuffer (lz4bEncoderProcess Z) := rfl
  rcases Encoding.next_cases hlifted s buf mode with ⟨hsame, hend⟩ | ⟨hfin, hcall⟩
  · rw [hsame]
    exact ⟨h, hend⟩
  obtain ⟨st, s', u, o, hr, hdoes⟩ := lz4bEncoder_call (Z := Z) s.enc.state buf.window mode
    fun hopen => (h.gathers hopen).2.2.2
  obtain ⟨hnext, hst⟩ := hcall st s' u o hr
  rw [hnext, hst]
  refine ⟨?_, fun he => by simp [he]⟩
  have hwin : buf.window.input = buf.unread := rfl
  rw [hwin] at hdoes
  cases hdoes with
  | drained done none_ rest ended =>
    obtain ⟨hfits, hblock, -⟩ := h.holds done
    refine ⟨h.level_eq, fun hopen => ?_, fun _ => ⟨?_, ?_, fun hfin => ended (by simpa using hfin)⟩⟩
    · rw [show s.enc.state.done = false from hopen] at done
      cases done
    · rw [none_, List.append_nil]
      exact hfits
    · rw [none_, List.append_nil, List.append_assoc, rest]
      exact hblock
  | gathered open_ none_ more =>
    obtain ⟨-, hinput, hgiven, hstage⟩ := h.gathers open_
    refine ⟨h.level_eq, fun _ => ⟨by simpa using more, ?_, by simp [hgiven, none_], hstage⟩,
      fun hdone => ?_⟩
    · simp [hinput]
    · rw [show s.enc.state.done = true from hdone] at open_
      cases open_
  | produced open_ done same fits block ended =>
    obtain ⟨-, hinput, hgiven, -⟩ := h.gathers open_
    rw [hinput] at fits block
    refine ⟨same.2.trans h.level_eq, fun hopen => ?_, fun _ => ⟨fits, ?_, fun hfin =>
      ended (by simpa using hfin)⟩⟩
    · rw [show s'.done = false from hopen] at done
      cases done
    · rw [← h.level_eq, hgiven]
      exact block

theorem lz4bEncoded_start {lookup : CodecId → Option CodecVtable} {opts : EncoderOpts}
    {e : Encoder (lz4BlockCodec Z)} (hnew : encoderNew lookup opts = .ok ⟨lz4BlockCodec Z, e⟩) :
    Lz4bEncoded Z opts.level (Encoding.start e) := by
  obtain ⟨hopts, hstate, hfin⟩ := encoderNew_ok hnew
  have hnew : e.state = lz4bNew true opts.level none := by
    rw [hopts] at hstate
    exact (Except.ok.inj hstate).symm
  have hdone : (Encoding.start e).enc.state.done = false := by
    rw [Encoding.start, hnew]
    rfl
  refine ⟨by rw [Encoding.start, hnew]; rfl, fun _ => ⟨hfin, ?_, rfl, ?_⟩, fun h => ?_⟩
  · rw [Encoding.start, hnew]
    rfl
  · rw [Encoding.start, hnew]
    rfl
  · rw [h] at hdone
    cases hdone

/-- What the encoder makes of a payload is the block liblz4 makes of it. -/
theorem lz4bEncodes_block {lookup : CodecId → Option CodecVtable} {opts : EncoderOpts}
    {e : Encoder (lz4BlockCodec Z)} (hnew : encoderNew lookup opts = .ok ⟨lz4BlockCodec Z, e⟩)
    {x b : List UInt8} (h : Encoding.Encodes e x b) :
    x.length ≤ lz4MaxInputSize ∧
      lz4bCompress Z opts.level x (lz4CompressBound x.length) = some b := by
  obtain ⟨s, buf, mode, hrun, hst, rfl, rfl⟩ := h
  have hinv := hrun.invariant (Lz4bEncoded Z opts.level) (lz4bEncoded_start hnew)
    fun s buf mode hs => (hs.next buf mode).1
  obtain ⟨hnext, hfin⟩ := hinv.next buf mode
  have hdone : (s.next buf mode).enc.state.done = true := by
    by_contra hopen
    have := (hnext.gathers (by simpa using hopen)).1
    rw [hfin hst] at this
    cases this
  obtain ⟨hfits, hblock, hstage⟩ := hnext.holds hdone
  rw [hstage (hfin hst), List.append_nil] at hblock
  exact ⟨hfits, hblock⟩

/-! ## Sessions of the decoder -/

variable {L : Lz4Blocks Z} {x b : List UInt8} {hblock : L.Block b x} {hx : x.length ≤ intMax}
  {hb : b.length < wordSize} {d : Decoder (lz4BlockCodec Z)}

/-- A new decoder with no limit but the payload's size is at the start of the block. -/
theorem lz4BlockDecoder_standing {lookup : CodecId → Option CodecVtable} {opts : DecoderOpts}
    (hnew : decoderNew lookup opts = .ok ⟨lz4BlockCodec Z, d⟩) (hmax : d.opts.maxOutput = 0)
    (hratio : d.opts.maxRatio = 0)
    (hexp : d.opts.hasExpected = true → d.opts.expectedSize.toNat = x.length) :
    (lz4BlockDecoder L hblock hx hb).Standing d false 0 0 := by
  obtain ⟨hfin, -, hout⟩ := decoderNew_fresh hnew
  obtain ⟨-, hstate⟩ := decoderNew_ok hnew
  have hstate : d.state = lz4bNew false levelDefault (some d.opts) :=
    (Except.ok.inj hstate).symm
  refine ⟨?_, hfin, hratio, fun C status _ => by simp [hout]⟩
  change Lz4bAt b x d.state false 0 0
  rw [hstate]
  exact .gathering ⟨rfl, hmax, hexp⟩ rfl rfl (Nat.zero_le _) (Nat.zero_le _)

variable {f : Feed (lz4BlockCodec Z)} {chunks : List (List UInt8)} {opts : DecoderOpts} {p q : ℕ}

theorem lz4Block_unread_le (h : (lz4BlockDecoder L hblock hx hb).Fed chunks opts f p q) :
    p + (f.unread ++ f.later.flatten).length = b.length := by
  obtain ⟨last, hstand, -⟩ := h.standing
  have hp : p ≤ b.length := ((lz4BlockDecoder L hblock hx hb).bounds hstand.at_).1
  have hrest := congrArg List.length h.rest
  rw [List.length_drop] at hrest
  change _ = b.length - p at hrest
  omega

/-- The decoder gives up where it is offered more than the largest block it gathers. -/
theorem lz4Block_failsAt_iff (h : (lz4BlockDecoder L hblock hx hb).Fed chunks opts f p q) :
    (lz4BlockDecoder L hblock hx hb).FailsAt f ↔
      f.dec.state.done = false ∧ lz4MaxInputSize < p + f.unread.length := by
  obtain ⟨last, hstand, -⟩ := h.standing
  have hat : Lz4bAt b x f.dec.state last p q := hstand.at_
  change (f.dec.state.done = false ∧ _ < f.dec.state.input.length +
    (StreamDecoder.shownWindow f.dec (.ofParts f.unread f.room)).input.length) ↔ _
  simp only [StreamDecoder.shownWindow, Buffer.unread_ofParts]
  cases hat with
  | gathering suits done input p_le p_max =>
    rw [input, List.length_take, Nat.min_eq_left p_le]
  | draining done stage q_le fits => simp [done]

/-- The decoder delivers the text of a block exactly where it can gather the block. -/
theorem lz4Block_returns_iff (L : Lz4Blocks Z) (hblock : L.Block b x) (hx : x.length ≤ intMax)
    (hb : b.length < wordSize) {lookup : CodecId → Option CodecVtable}
    (hnew : decoderNew lookup opts = .ok ⟨lz4BlockCodec Z, d⟩) (hmax : d.opts.maxOutput = 0)
    (hratio : d.opts.maxRatio = 0)
    (hexp : d.opts.hasExpected = true → d.opts.expectedSize.toNat = x.length)
    (hcode : chunks.flatten = b) (hne : chunks ≠ []) (room : ℕ) (ws : Windows) :
    Returns (feedTurn ws) (Feed.start d room chunks) ⟨.streamEnd, x⟩ ↔
      b.length ≤ lz4MaxInputSize := by
  have hstart : (lz4BlockDecoder L hblock hx hb).Standing d false 0 0 :=
    lz4BlockDecoder_standing hnew hmax hratio hexp
  constructor
  · rintro ⟨f, hreach, hturn⟩
    obtain ⟨p, q, hfed⟩ := StreamDecoder.Fed.reaches ws hcode
      ⟨0, 0, StreamDecoder.fed_start trivial hstart hcode hne room⟩ hreach
    by_contra hlong
    by_cases hf : (lz4BlockDecoder L hblock hx hb).FailsAt f
    · obtain ⟨r, hr, herr⟩ := StreamDecoder.feedTurn_fails ws hfed hf
      rw [hturn] at hr
      cases hr
      cases herr
    -- an end needs the rest of the block in the caller's buffer
    · have hlater := StreamDecoder.feedTurn_fed ws hcode hfed hf
      rw [hturn] at hlater
      have hlen := lz4Block_unread_le hfed
      rw [hlater.2 rfl, List.append_nil] at hlen
      rw [lz4Block_failsAt_iff hfed, not_and] at hf
      obtain ⟨last, hstand, -⟩ := hfed.standing
      have hat : Lz4bAt b x f.dec.state last p q := hstand.at_
      cases hat with
      | gathering suits done input p_le p_max => exact hf done (by omega)
      | draining done stage q_le fits => exact hlong fits
  · intro hfits
    have hnofail : ∀ f, Reaches (feedTurn ws) (Feed.start d room chunks) f →
        ¬ (lz4BlockDecoder L hblock hx hb).FailsAt f := fun f hreach hf => by
      obtain ⟨p, q, hfed⟩ := StreamDecoder.Fed.reaches ws hcode
        ⟨0, 0, StreamDecoder.fed_start trivial hstart hcode hne room⟩ hreach
      have hlen := lz4Block_unread_le hfed
      rw [List.length_append] at hlen
      have := ((lz4Block_failsAt_iff hfed).mp hf).2
      omega
    obtain ⟨r, hr, hfair⟩ := StreamDecoder.feed_fair ws trivial hstart hcode hne room hnofail
    cases hfair with
    | ended _ _ => exact hr
    | missized expected size _ => exact absurd (hexp expected) size
    | @capped C _ _ ceiling _ _ owing =>
      have hC : C.toNat = x.length := by
        have hbound := ceiling
        unfold DecoderOpts.ceiling at hbound
        split_ifs at hbound with h1 h2
        · cases hbound
          exact hexp h1.1
        · exact absurd hmax h2
      rcases owing with hlt | ⟨_, p, _, hstall⟩
      · exact absurd hlt (by change ¬ C.toNat < x.length; omega)
      · exact hstall.elim

/-! ## The limit on the block -/

/-- The block that liblz4 makes of a payload is itself no longer than its largest input. -/
def Lz4BlockFits (Z : Lz4) (level : ℤ) (x : List UInt8) : Prop :=
  ∃ b, lz4bCompress Z level x (lz4CompressBound x.length) = some b ∧ b.length ≤ lz4MaxInputSize

theorem lz4bCompress_block (L : Lz4Blocks Z) (level : ℤ) (hx : x.length ≤ lz4MaxInputSize) :
    ∃ b, lz4bCompress Z level x (lz4CompressBound x.length) = some b ∧ L.Block b x ∧
      b.length ≤ lz4CompressBound x.length := by
  unfold lz4bCompress
  dsimp only
  split_ifs
  · exact L.hc _ hx
  · exact L.fast _ hx
  · exact L.fast _ hx

theorem lz4bCompressOne_encodes {lookup : CodecId → Option CodecVtable} {eopts : EncoderOpts}
    {e : Encoder (lz4BlockCodec Z)} (henc : encoderNew lookup eopts = .ok ⟨lz4BlockCodec Z, e⟩)
    {src : List UInt8} {dst : Option ℕ} {cap : ℕ} {buf : Buffer}
    (h : compressOne lookup eopts src dst cap = (.ok, buf)) :
    ∃ x, Encoding.Encodes e x buf.stored ∧ x ++ buf.unread = src := by
  have hlifted : (lz4BlockCodec Z).encoderProcess = onBuffer (lz4bEncoderProcess Z) := rfl
  unfold compressOne at h
  split_ifs at h
  · cases h
  · rw [henc] at h
    refine Encoding.oneShot_encodes hlifted (fun s hrun w mode => ?_) h
    have hinv := hrun.invariant (Lz4bEncoded Z eopts.level) (lz4bEncoded_start henc)
      fun s buf mode hs => (hs.next buf mode).1
    obtain ⟨st, s', u, o, hcall, -⟩ := lz4bEncoder_call (Z := Z) s.enc.state w mode
      fun hopen => (hinv.gathers hopen).2.2.2
    exact ⟨u, o, by rw [hcall]⟩

theorem lz4BlockFits_of_bound (L : Lz4Blocks Z) (level : ℤ)
    (hx : x.length + x.length / 255 + 16 ≤ lz4MaxInputSize) : Lz4BlockFits Z level x := by
  obtain ⟨b, hb, -, hle⟩ := lz4bCompress_block L level (x := x) (by omega)
  refine ⟨b, hb, hle.trans ?_⟩
  unfold lz4CompressBound
  split_ifs <;> omega

/-- A new encoder makes the block of any payload within liblz4's largest input. -/
theorem lz4bEncodes_oneShot {lookup : CodecId → Option CodecVtable} {eopts : EncoderOpts}
    {e : Encoder (lz4BlockCodec Z)}
    (henc : encoderNew lookup eopts = .ok ⟨lz4BlockCodec Z, e⟩) (hx : x.length ≤ lz4MaxInputSize)
    (hblock : lz4bCompress Z eopts.level x (lz4CompressBound x.length) = some b) :
    Encoding.Encodes e x b := by
  obtain ⟨hopts, hstate, hfin⟩ := encoderNew_ok henc
  have hstate : e.state = lz4bNew true eopts.level none := by
    rw [hopts] at hstate
    exact (Except.ok.inj hstate).symm
  have hpos : 0 < lz4CompressBound x.length := by
    unfold lz4CompressBound
    rw [if_neg (by omega)]
    omega
  have hcall : lz4bEncoderProcess Z e.state ⟨x, lz4CompressBound x.length, []⟩ .finish =
      (.streamEnd, { e.state with done := true },
        (Window.take ⟨x, lz4CompressBound x.length, []⟩ x.length).put b) := by
    rw [hstate, lz4bEncoderProcess, if_neg (by simp [lz4bNew]), if_neg (by simp),
      if_pos ⟨rfl, hx, hpos, le_rfl⟩]
    dsimp only [lz4bNew]
    rw [hblock]
  have hprocess : encoderProcess e (.ofParts x (lz4CompressBound x.length)) .finish =
      (.streamEnd, { e with state := { e.state with done := true }, finished := true },
        (Buffer.ofParts x (lz4CompressBound x.length)).advance
          ((Window.take ⟨x, lz4CompressBound x.length, []⟩ x.length).put b)) := by
    rw [encoderProcess, if_neg (by simp), if_neg (by simp [hfin]), if_neg (by simp)]
    simp only [lz4BlockCodec, onBuffer, Buffer.window_ofParts, hcall]
    rfl
  refine ⟨.start e, .ofParts x (lz4CompressBound x.length), .finish, .new, ?_, ?_, ?_⟩
  · rw [Encoding.start, hprocess]
  · rw [Encoding.next, Encoding.start, hprocess]
    simp [Buffer.advance, Buffer.ofParts, Buffer.unread]
  · rw [Encoding.next, Encoding.start, hprocess]
    simp [Buffer.advance, Buffer.ofParts]

/-! ## The largest payload -/

def lz4BlockOnly : CodecId → Option CodecVtable := fun _ => some (lz4BlockCodec refLz4)

def fastestOpts : EncoderOpts where
  structSize := 16
  codec := codecLz4Block
  level := lz4LevelMin
  flags := 0

def blockOpts : DecoderOpts where
  structSize := 32
  codec := codecLz4Block
  maxOutput := 0
  maxRatio := 0
  flags := 0
  expectedSize := 0

def fastestEncoder : Encoder (lz4BlockCodec refLz4) where
  state := lz4bNew true lz4LevelMin none
  opts := fastestOpts
  finished := false

def blockDecoder : Decoder (lz4BlockCodec refLz4) where
  state := lz4bNew false levelDefault (some blockOpts)
  opts := blockOpts
  finished := false
  totalIn := 0
  totalOut := 0

theorem fastestEncoder_new :
    encoderNew lz4BlockOnly fastestOpts = .ok ⟨lz4BlockCodec refLz4, fastestEncoder⟩ := rfl

theorem blockDecoder_new :
    decoderNew lz4BlockOnly blockOpts = .ok ⟨lz4BlockCodec refLz4, blockDecoder⟩ := rfl

def zeroPayload (n : ℕ) : List UInt8 := [0, 1, 2, 3, 4, 5] ++ List.replicate n 0

theorem zeroPayload_length (n : ℕ) : (zeroPayload n).length = n + 6 := by
  rw [zeroPayload, List.length_append, List.length_replicate, Nat.add_comm]
  rfl

def hugePayload : List UInt8 := zeroPayload 0x7DFFFFFA

theorem hugePayload_length : hugePayload.length = lz4MaxInputSize := zeroPayload_length _

theorem hugeBlock_length : (lz4Literals hugePayload).length = 2122219136 := by
  rw [lz4Literals_length, hugePayload_length]
  norm_num [lz4MaxInputSize]

/-! ## The round trip -/

/-- What the encoder makes of a payload, however the payload is split, is decoded to it, however
the block is split, exactly where the block keeps within the limit on the payload. -/
theorem lz4Block_roundTrip (L : Lz4Blocks Z) {lookup : CodecId → Option CodecVtable}
    {eopts : EncoderOpts} {e : Encoder (lz4BlockCodec Z)}
    (henc : encoderNew lookup eopts = .ok ⟨lz4BlockCodec Z, e⟩) (h : Encoding.Encodes e x b)
    (hdec : decoderNew lookup opts = .ok ⟨lz4BlockCodec Z, d⟩) (hmax : d.opts.maxOutput = 0)
    (hratio : d.opts.maxRatio = 0)
    (hexp : d.opts.hasExpected = true → d.opts.expectedSize.toNat = x.length)
    (hcode : chunks.flatten = b) (hne : chunks ≠ []) (room : ℕ) (ws : Windows) :
    Returns (feedTurn ws) (Feed.start d room chunks) ⟨.streamEnd, x⟩ ↔
      Lz4BlockFits Z eopts.level x := by
  obtain ⟨hfits, hblock⟩ := lz4bEncodes_block henc h
  obtain ⟨b', hb', hvalid, hle⟩ := lz4bCompress_block L eopts.level hfits
  obtain rfl : b' = b := Option.some.inj (hb'.symm.trans hblock)
  have hbound := lz4CompressBound_le x.length
  have hint : x.length ≤ intMax := hfits.trans (by norm_num [lz4MaxInputSize, intMax])
  have hword : b'.length < wordSize := (hle.trans hbound).trans_lt (by norm_num)
  rw [lz4Block_returns_iff L hvalid hint hword hdec hmax hratio hexp hcode hne room ws]
  constructor
  · exact fun hb => ⟨b', hblock, hb⟩
  · rintro ⟨b'', hb'', hle''⟩
    obtain rfl : b' = b'' := Option.some.inj (hblock.symm.trans hb'')
    exact hle''

/-- The block of the largest payload decodes to nothing. -/
theorem lz4Block_unreadable :
    ¬ ∀ (Z : Lz4) (_ : Lz4Blocks Z) (lookup : CodecId → Option CodecVtable) (eopts : EncoderOpts)
      (e : Encoder (lz4BlockCodec Z)) (_ : encoderNew lookup eopts = .ok ⟨lz4BlockCodec Z, e⟩)
      (x b : List UInt8) (_ : Encoding.Encodes e x b) (opts : DecoderOpts)
      (d : Decoder (lz4BlockCodec Z)) (_ : decoderNew lookup opts = .ok ⟨lz4BlockCodec Z, d⟩)
      (_ : d.opts.maxOutput = 0) (_ : d.opts.maxRatio = 0)
      (_ : d.opts.hasExpected = true → d.opts.expectedSize.toNat = x.length)
      (chunks : List (List UInt8)) (_ : chunks.flatten = b) (_ : chunks ≠ []) (room : ℕ)
      (ws : Windows), Returns (feedTurn ws) (Feed.start d room chunks) ⟨.streamEnd, x⟩ := by
  intro hall
  have hfits := hugePayload_length.le
  have hint : hugePayload.length ≤ intMax :=
    hfits.trans (by norm_num [lz4MaxInputSize, intMax])
  have hword : (lz4Literals hugePayload).length < wordSize := by
    rw [hugeBlock_length]
    norm_num
  have hencodes : Encoding.Encodes fastestEncoder hugePayload (lz4Literals hugePayload) :=
    lz4bEncodes_oneShot fastestEncoder_new hfits (refLz4_compress _ hfits)
  have hreturns := hall refLz4 refLz4Blocks lz4BlockOnly fastestOpts fastestEncoder
    fastestEncoder_new hugePayload _ hencodes blockOpts blockDecoder blockDecoder_new rfl rfl
    (by simp [blockDecoder, blockOpts, DecoderOpts.hasExpected]) [lz4Literals hugePayload]
    (by simp) (by simp) 1 byteWindows
  have hlen := (lz4Block_returns_iff refLz4Blocks rfl hint hword blockDecoder_new rfl rfl
    (by simp [blockDecoder, blockOpts, DecoderOpts.hasExpected]) (by simp) (by simp) 1
    byteWindows).mp hreturns
  rw [hugeBlock_length] at hlen
  norm_num [lz4MaxInputSize] at hlen

/-- The letter a, its block byte by byte. -/
theorem lz4Block_roundTrip_letter :
    Returns (feedTurn byteWindows) (Feed.start blockDecoder 1 [[0x10], [0x61]])
      ⟨.streamEnd, [0x61]⟩ ↔ Lz4BlockFits refLz4 lz4LevelMin [0x61] :=
  lz4Block_roundTrip refLz4Blocks fastestEncoder_new
    (lz4bEncodes_oneShot fastestEncoder_new (by decide) rfl) blockDecoder_new rfl rfl
    (by decide) rfl (by simp) 1 byteWindows

end Zukomp
