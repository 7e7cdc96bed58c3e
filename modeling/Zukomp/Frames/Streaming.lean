import Zukomp.Frames.Decode
import Zukomp.Frames.Lz4f
import Zukomp.Frames.Zstd

/-! # The framed decoders keep the streaming contract

The whole call of the loop, from its turns, for both libraries.
-/

namespace Zukomp

open Library

variable {ε : Type} {L : FrameLib ε} {Valid : Coding UInt8 → Prop} {I : ReadsFrames L Valid}
  {kind : FramesKind} {decFlags : UInt32} {fs : List (Coding UInt8)} {s : FramedState L}
  {w : Window} {mode : Flush} {m p q : ℕ} {fail : ε → Status}
  {feed : L.State → List UInt8 → Status × L.State}

/-- The library takes the magic of a frame whole, without room. -/
theorem feedHeld_ok {all : FrameStep L.State ε → ℕ → Bool}
    (hall : ∀ r n, r.used = n → r.out = [] → all r n = true) {k : ℕ} {n : Coding UInt8} {z : L.State}
    (hframe : kind.ValidFrame Valid n) (hengine : I.At (k + 1) n z 0 0) :
    ∃ z', feedHeld fail all z (n.code.take 4) = (.ok, z') ∧ I.At (I.spare + 4) n z' 4 0 := by
  have hlong := hframe.long
  have hlen : (n.code.take 4).length = 4 := by
    rw [List.length_take]
    omega
  have hunended (u : ℕ) (hu : u ≤ 4) : ¬ n.Ended (0 + u) (0 + 0) := fun h => by
    have := h.1
    omega
  have hr := I.decompress 0 hframe.valid hengine (hunended 0 (by omega))
    (show n.Sees 0 (n.code.take 4) from (List.take_prefix ..).trans (List.take_prefix ..))
  have hread := L.used_le z (n.code.take 4) 0
  have hroom := L.out_le z (n.code.take 4) 0
  set r := L.decompress z (n.code.take 4) 0 with hcall
  have hout : r.out = [] := List.eq_nil_of_length_eq_zero (by omega)
  have hend : ¬ n.Ended (0 + r.used) (0 + r.out.length) := by
    rw [hout]
    exact hunended _ (by omega)
  have hused : r.used = 4 := by
    by_contra hne
    have := hr.magic (by omega) hend
    omega
  obtain ⟨hresult, hat⟩ := hr.more hend
  rw [if_pos (.inl (by omega))] at hat
  refine ⟨r.state, ?_, by simpa [hused, hout] using hat⟩
  have hfull := hall r 4 hused hout
  unfold feedHeld
  dsimp only
  rw [← hcall, hresult, hlen, if_pos hfull]

theorem FramedAt.bounds (hfs : kind.ValidFrames Valid decFlags fs)
    (h : FramedAt I m kind decFlags fs [] s p q) :
    p ≤ (framesCoding fs []).code.length ∧ q ≤ (framesCoding fs []).text.length := by
  obtain ⟨pre, c, post, i, j, heq, hphase, rfl, hq⟩ := h.place
  have hsplit : FrameSplit kind Valid decFlags fs pre c post := ⟨hfs, heq⟩
  rw [hsplit.code_length [], framesCoding_text, hsplit.text_length]
  cases hphase with
  | body state noHeld engine unended =>
    obtain ⟨hp, hq⟩ := I.bounds engine
    omega
  | between state held short engine =>
    have := held.length_le
    omega

theorem frameTurn_carries (fail : ε → Status) (hm : m ≤ 1) (hfeed : Feeds I kind feed)
    (hfs : kind.ValidFrames Valid decFlags fs) (howed : s.frames.owed = none)
    (h : FramedAt I (m + 1) kind decFlags fs [] s p q)
    (hx : (framesCoding fs []).Shows p w.input (mode = .finish)) :
    FramesCarry I m kind decFlags fs [] p q w mode (frameTurn fail feed mode s w) ∧
      ∀ y, frameTurn fail feed mode s w = .inl y → framedMeasure y < framedMeasure (s, w) := by
  obtain ⟨pre, c, post, i, j, heq, hphase, rfl, hq⟩ := h.place
  have hsplit : FrameSplit kind Valid decFlags fs pre c post := ⟨hfs, heq⟩
  obtain rfl : q = (frameTexts pre).length + j := by simpa [howed] using hq
  rw [if_pos howed] at hphase
  cases hphase with
  | body state noHeld engine unended =>
    exact body_carries hm hsplit h.kind_eq h.flags howed state noHeld engine unended hx
  | between state held short engine =>
    cases post with
    | nil =>
      have hnil : s.frames.held = [] := List.prefix_nil.mp held
      rw [hnil, List.length_nil] at hx ⊢
      exact end_carries hm hsplit h.kind_eq h.flags howed state hnil engine hx
    | cons n post =>
      exact next_carries hm hsplit hfeed h.kind_eq h.flags howed state held short engine hx

/-- Every turn carries the stream, and an owed byte is paid first. -/
theorem framedStep_carries (hm : m ≤ 1) (hfeed : Feeds I kind feed)
    (hfs : kind.ValidFrames Valid decFlags fs)
    (h : FramedAt I (m + 1) kind decFlags fs [] s p q)
    (hx : (framesCoding fs []).Shows p w.input (mode = .finish)) :
    FramesCarry I m kind decFlags fs [] p q w mode (framedStep fail feed mode (s, w)) ∧
      ∀ y, framedStep fail feed mode (s, w) = .inl y → framedMeasure y < framedMeasure (s, w) := by
  unfold framedStep framesPay
  dsimp only
  cases howed : s.frames.owed with
  | none => exact frameTurn_carries fail hm hfeed hfs howed h hx
  | some b =>
    have hwrites : (framesCoding fs []).Writes q [b] := by simpa [howed] using h.owed
    dsimp only
    by_cases hr : w.room = 0
    · rw [if_pos hr]
      refine ⟨.full (.refl w) .nil (h.weaken (Nat.le_succ m)).stays hr (.inl ?_), by simp⟩
      have := hwrites.length_le
      simp only [List.length_singleton, List.length_nil] at this ⊢
      omega
    · rw [if_neg hr]
      have hmoved : w.Moved 0 [b] (w.put [b]) := .put (by simp; omega)
      -- the library has done nothing since it gave the byte
      have hpaid : FramedAt I (1 + 1) kind decFlags fs []
          ⟨s.dctx, { s.frames with owed := none }⟩ (p + 0) (q + [b].length) := by
        obtain ⟨pre, c, post, i, j, heq, hphase, hp, hq⟩ := h.place
        rw [if_neg (by simp [howed])] at hphase
        refine ⟨h.kind_eq, h.flags, by simp [Coding.Writes], pre, c, post, i, j, heq, ?_, hp,
          by simpa [howed] using hq⟩
        rw [if_pos rfl]
        cases hphase with
        | body state noHeld engine unended => exact .body state noHeld engine unended
        | between state held short engine => exact .between state held short engine
      obtain ⟨hcarry, hless⟩ := frameTurn_carries (w := w.put [b]) fail le_rfl hfeed hfs rfl hpaid
        (show (framesCoding fs []).Shows (p + 0) (w.put [b]).input (mode = .finish) from hx)
      refine ⟨(FramesCarry.moved hm hcarry).after hmoved hwrites, fun y hy => (hless y hy).trans ?_⟩
      simp only [framedMeasure, Window.put_input, Window.put_room, List.length_singleton]
      omega

/-- A call of a framed decoder answers as the contract says. A call that moves ends with at most one
that does not, and a library that bears a few of these is back in its place. -/
theorem framedProcess_answer (fail : ε → Status) (hfeed : Feeds I kind feed)
    (hfs : kind.ValidFrames Valid decFlags fs) (h : FramedAt I 1 kind decFlags fs [] s p q)
    (hx : (framesCoding fs []).Shows p w.input (mode = .finish)) :
    Answer (framesCoding fs [])
      (KeepsPlace (fun s _ => FramedAt I 1 kind decFlags fs [] s) I.Tireless p q)
      (fun _ => False) False p q w (mode == .finish) (framedProcess fail feed s w mode) := by
  have hturn (s : FramedState L) (w : Window) (u v : ℕ)
      (h : FramesGone I (0 + 1) 2 kind decFlags fs [] p q s (mode == .finish) (p + u) (q + v))
      (hx : (framesCoding fs []).Shows (p + u) w.input (mode = .finish)) :
      Carries (framesCoding fs []) (FramesGone I (0 + 1) 2 kind decFlags fs [] p q)
          (FramesGone I 0 1 kind decFlags fs [] p q) (fun _ => False) False (p + u) (q + v) w
          (mode == .finish) (framedStep fail feed mode (s, w)) ∧
        ∀ y, framedStep fail feed mode (s, w) = .inl y → framedMeasure y < framedMeasure (s, w) := by
    unfold FramesGone at h
    by_cases hmoved : (p + u, q + v) = (p, q)
    · rw [if_pos hmoved] at h
      obtain ⟨rfl, rfl⟩ : u = 0 ∧ v = 0 := by simpa using hmoved
      exact framedStep_carries (Nat.zero_le 1) hfeed hfs h hx
    · rw [if_neg hmoved] at h
      obtain ⟨hcarry, hless⟩ := framedStep_carries (m := 1) le_rfl hfeed hfs h hx
      exact ⟨FramesCarry.moved (Nat.zero_le 1) hcarry, hless⟩
  have hanswer : Answer (framesCoding fs []) (FramesGone I 0 1 kind decFlags fs [] p q)
      (fun _ => False) False p q w (mode == .finish) (framedProcess fail feed s w mode) := by
    refine answer_of_turns framedMeasure hturn h.stays hx ?_
    simp only [framedMeasure]
    split_ifs <;> omega
  refine hanswer.mono fun s u v hat hplace => ?_
  unfold FramesGone at hat
  rcases hplace with hI | hmoved
  · exact hat.rested hI
  · rwa [if_neg hmoved] at hat

theorem framedInit_at (hfs : kind.ValidFrames Valid decFlags fs) {z : L.State}
    (hz : ∀ c, Valid c → I.At (I.spare + 4) c z 0 0) :
    FramedAt I 1 kind decFlags fs [] ⟨z, framesInit kind decFlags⟩ 0 0 := by
  obtain ⟨c, post, rfl⟩ := List.exists_cons_of_ne_nil hfs.nonempty
  have hsplit : FrameSplit kind Valid decFlags (c :: post) [] c post := ⟨hfs, rfl⟩
  have hlong := hsplit.frame.long
  refine hsplit.at_ (i := 0) (j := 0) rfl rfl rfl
    (.body rfl rfl (I.weaken (by simp) (hz c hsplit.frame.valid)) fun hend => ?_)
  have := hend.1
  omega

/-! ## The two decoders -/

/-- libzstd, with the decoder window cut to `log`, decodes the valid frames. -/
structure ZstdReads (Z : Zstd) (log : ℕ) (Valid : Coding UInt8 → Prop) extends
    ReadsFrames Z.toFrameLib Valid where
  opened : ∀ {z z'}, Z.createDCtx = some z → Z.setWindowLogMax z log = some z' →
    ∀ c, Valid c → At (spare + 4) c z' 0 0

/-- liblz4 decodes the valid frames. -/
structure Lz4fReads (F : Lz4f) (Valid : Coding UInt8 → Prop) extends
    ReadsFrames F.toFrameLib Valid where
  opened : ∀ {z}, F.createDctx = some z → ∀ c, Valid c → At (spare + 4) c z 0 0

theorem Answer.lift {σ τ : Type} {c : Coding UInt8} {At : σ → Bool → ℕ → ℕ → Prop}
    {At' : τ → Bool → ℕ → ℕ → Prop} {Stall : ℕ → Prop} {fails : Prop} {p q : ℕ} {w : Window}
    {last : Bool} {r : Status × σ × Window} (g : σ → τ)
    (hg : ∀ s last p q, At s last p q → At' (g s) last p q)
    (h : Answer c At Stall fails p q w last r) :
    Answer c At' Stall fails p q w last (r.1, g r.2.1, r.2.2) := by
  cases h with
  | ended moved writes read written => exact .ended moved writes read written
  | hungry moved writes at_ more empty stall =>
    exact .hungry moved writes (hg _ _ _ _ at_) more empty stall
  | full moved writes at_ noRoom owing => exact .full moved writes (hg _ _ _ _ at_) noRoom owing
  | failed fail => exact .failed fail

theorem zstdFeedHeld_feeds {Z : Zstd} (I : ReadsFrames Z.toFrameLib Valid) (maxOutput : UInt64) :
    Feeds I .zstd (zstdFeedHeld maxOutput) := fun hframe hz =>
  feedHeld_ok (fun r n hr _ => by simp [hr]) hframe hz

theorem lz4fFeedHeld_feeds {F : Lz4f} (I : ReadsFrames F.toFrameLib Valid) :
    Feeds I .lz4 (lz4fFeedHeld (F := F)) := fun hframe hz =>
  feedHeld_ok (fun r n hr hout => by simp [hr, hout]) hframe hz

/-- zstd's decoder for a stream of frames. -/
def zstdStream {Z : Zstd} (I : ReadsFrames Z.toFrameLib Valid)
    (hfs : FramesKind.zstd.ValidFrames Valid decFlags fs) :
    StreamDecoder (zstdCodec Z) (framesCoding fs []) where
  process := zstdDecoderProcess
  lifted := zstdCodec_decodes Z
  At := fun (s : ZstdDecoder Z) _ p q => FramedAt I 1 .zstd decFlags fs [] s.toFramedState p q
  Stall _ := False
  Fails _ _ _ := False
  Idles := I.Tireless
  answers := by
    intro (s : ZstdDecoder Z) last p q w mode h _ _ hx
    have hans := framedProcess_answer (zstdError false s.maxOutput)
      (zstdFeedHeld_feeds I s.maxOutput) hfs h hx
    exact hans.lift (fun f : FramedState Z.toFrameLib => ({ s with toFramedState := f } : ZstdDecoder Z))
      fun _ _ _ _ h => h
  fails := by
    intro _ _ _ _ _ _ _ _ _ _ h
    exact h.elim
  bounds h := h.bounds hfs
  stall_lt h := h.elim

/-- lz4-frame's decoder for a stream of frames. -/
def lz4fStream {F : Lz4f} (I : ReadsFrames F.toFrameLib Valid)
    (hfs : FramesKind.lz4.ValidFrames Valid decFlags fs) :
    StreamDecoder (lz4FrameCodec F) (framesCoding fs []) where
  process := lz4fDecoderProcess
  lifted := lz4FrameCodec_decodes F
  At := fun (s : Lz4fDecoder F) _ p q => FramedAt I 1 .lz4 decFlags fs [] s p q
  Stall _ := False
  Fails _ _ _ := False
  Idles := I.Tireless
  answers := by
    intro (s : Lz4fDecoder F) last p q w mode h _ _ hx
    exact framedProcess_answer (lz4fError false) (lz4fFeedHeld_feeds I) hfs h hx
  fails := by
    intro _ _ _ _ _ _ _ _ _ _ h
    exact h.elim
  bounds h := h.bounds hfs
  stall_lt h := h.elim

end Zukomp
