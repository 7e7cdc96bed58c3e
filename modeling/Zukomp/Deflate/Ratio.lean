import Zukomp.Core.Whole
import Zukomp.Deflate.Delivery

/-! # The ratio limit and the chunk sizes

A whole-buffer run checks the ratio of its running totals after every call. A stream with
an early stretch that compresses well is over the ratio where a chunk ends in that stretch,
and within it at the end.
-/

namespace Zukomp

open Library

variable {M : Miniz} {codec : CodecId} {wrap : WrapKind} {Valid : Progressive UInt8 → Prop}
  {ms : List Member} {decFlags : UInt32}

theorem deflate_not_failsWhole (I : Inflates M.inflate Valid)
    (hms : wrap.ValidStream Valid decFlags ms) (hsmall : (Member.codes ms).length ≤ mzClamp)
    {r : RunOpts} (hin : 0 < r.inChunk) {x : Whole (Decoder (deflateVtable M codec wrap))} {p : ℕ}
    (h : (deflateDecoder I codec hms).WholeAt r x p) :
    ¬ (deflateDecoder I codec hms).FailsWhole r x := by
  rintro ⟨y, hreach, -, -, -, hclamp, -⟩
  have hview := deflateStep_reaches_le hreach
  have hrest := congrArg List.length (h.refill hin).1.rest
  simp only [StreamDecoder.shownWindow, Buffer.unread_ofParts] at hview
  rw [List.length_append, List.length_drop] at hrest
  have hcode : (streamCoding ms).code.length = (Member.codes ms).length := rfl
  omega

/-- A whole-buffer run over such a source delivers the text, whatever its chunks. -/
theorem deflate_splitIndependent (I : Inflates M.inflate Valid) {lookup : CodecId → Option CodecVtable}
    {opts : DecoderOpts} {d : Decoder (deflateVtable M codec wrap)}
    (hnew : decoderNew lookup opts = .ok ⟨deflateVtable M codec wrap, d⟩)
    (hms : wrap.ValidStream Valid d.opts.flags ms) (hnone : d.opts.ceiling = none)
    (hsmall : (Member.codes ms).length ≤ mzClamp) {r : RunOpts} (hsrc : r.src = Member.codes ms)
    (hflush : r.flushEvery = 0) : SplitIndependent d r .streamEnd (Member.texts ms) := by
  obtain ⟨hfin, -, hout⟩ := decoderNew_fresh hnew
  obtain ⟨-, hstate⟩ := decoderNew_ok hnew
  have hstart : (deflateDecoder I codec hms).Standing (d.limited 0) false 0 0 := by
    refine ⟨deflateNew_at I hms.tailed hstate, hfin, rfl, fun C status _ => ?_⟩
    change d.totalOut.toNat = 0 ∧ _
    rw [hout]
    exact ⟨rfl, Nat.zero_le _⟩
  intro c hfits
  exact StreamDecoder.whole_end (r := r.chunked c) hstart hnone hsrc c.in_pos c.out_pos hflush hfits
    fun x p hx => deflate_not_failsWhole I hms hsmall c.in_pos hx

theorem earlyRun_mono {a b : ℕ} (h : a ≤ b) :
    (if a < 2 then 0 else if a < 3 then 1 else if a < 10 then 11 else 12) ≤
      (if b < 2 then 0 else if b < 3 then 1 else if b < 10 then 11 else 12) := by
  split_ifs <;> omega

/-- Ten bytes of text after the first from one match, then a stored block of one byte. -/
def earlyRun : Progressive UInt8 where
  code := [0x4A, 0x44, 0x00, 0x40, 0x00, 0x01, 0x00, 0xFE, 0xFF, 0x62]
  text := List.replicate 11 0x61 ++ [0x62]
  ready p := if p < 2 then 0 else if p < 3 then 1 else if p < 10 then 11 else 12
  ready_mono a b h := earlyRun_mono h
  ready_full := by simp
  code_ne := by simp

/-- A raw decode of it under a ratio of 2. -/
def earlyRunOpts : RunOpts where
  src := earlyRun.code
  encode := false
  codec := codecDeflateRaw
  level := 0
  maxOutput := 0
  maxRatio := 2
  decFlags := 0
  expectedSize := 0
  inChunk := 0
  outChunk := 0
  flushEvery := 0

def wholeChunk : Chunking := ⟨10, 16, by norm_num, by norm_num⟩
def threeBytes : Chunking := ⟨3, 16, by norm_num, by norm_num⟩

theorem earlyRun_new : decoderNew (rawOnly earlyRun) earlyRunOpts.decoderOpts =
    .ok ⟨deflateVtable (refMiniz earlyRun) codecDeflateRaw .none, (rawDecoder earlyRun 0).limited 2⟩ :=
  rfl

theorem earlyRun_splitIndependent :
    SplitIndependent ((rawDecoder earlyRun 0).limited 2) earlyRunOpts .streamEnd earlyRun.text := by
  have h := deflate_splitIndependent (refInflates earlyRun) earlyRun_new
    (rawStream_valid earlyRun 0) (by decide) (by decide) (r := earlyRunOpts) rfl rfl
  exact h

/-- In one slice the run ends within the ratio, and after three bytes it is over it. -/
theorem earlyRun_whole : RunsWhole (rawOnly earlyRun) (earlyRunOpts.chunked wholeChunk) .empty
    (.streamEnd, ⟨minBuffer, earlyRun.text, 10⟩) :=
  (runsWhole_decode rfl earlyRun_new _ _ _).mpr (.done rfl)

theorem earlyRun_threeBytes : RunsWhole (rawOnly earlyRun) (earlyRunOpts.chunked threeBytes) .empty
    (.errRatioLimit, ⟨minBuffer, List.replicate 11 0x61, 3⟩) :=
  (runsWhole_decode rfl earlyRun_new _ _ _).mpr (.done rfl)

/-- Some call of a run with these chunks leaves the totals over the ratio. -/
def RatioExceeded {v : CodecVtable} (d : Decoder v) (r : RunOpts) (c : Chunking) : Prop :=
  (Whole.start (d.limited 0) r .empty).Exceeds (r.chunked c) r.maxRatio

/-- Two choices of chunks for which no call leaves the totals over the ratio end alike. If one
ends the stream, no call of it does, and the other ends the stream with the same bytes unless a
call of it leaves the totals over the ratio: it is then refused for the ratio. -/
theorem ratioVerdict_chunking {v : CodecVtable} {lookup : CodecId → Option CodecVtable}
    {r : RunOpts} (henc : r.encode = false) {d : Decoder v}
    (hnew : decoderNew lookup r.decoderOpts = .ok ⟨v, d⟩) {st : Status} {bytes : List UInt8}
    (hind : SplitIndependent d r st bytes) (c₁ c₂ : Chunking)
    (h₁ : bytes.length + c₁.outChunk < wordSize) (h₂ : bytes.length + c₂.outChunk < wordSize) :
    ∃ e₁ e₂, RunsWhole lookup (r.chunked c₁) .empty e₁ ∧ RunsWhole lookup (r.chunked c₂) .empty e₂ ∧
      (¬ RatioExceeded d r c₁ → ¬ RatioExceeded d r c₂ → e₁.1 = e₂.1 ∧ e₁.2.used = e₂.2.used) ∧
      (e₁.1 = .streamEnd → ¬ RatioExceeded d r c₁ ∧
        (¬ RatioExceeded d r c₂ ∧ e₂.1 = .streamEnd ∧ e₂.2.used = e₁.2.used ∨
          RatioExceeded d r c₂ ∧ e₂.1 = .errRatioLimit)) := by
  obtain ⟨hfin, -, -⟩ := decoderNew_fresh hnew
  obtain ⟨hopts, -⟩ := decoderNew_ok hnew
  have hratio : d.opts.maxRatio = r.maxRatio := by rw [hopts]; rfl
  have hrun (c : Chunking) (hfits : bytes.length + c.outChunk < wordSize) :
      ∃ e, RunsWhole lookup (r.chunked c) .empty e ∧
        (¬ RatioExceeded d r c → e.1 = st ∧ e.2.used = bytes) ∧
        (RatioExceeded d r c → (e.1 = st ∨ e.1 = .errRatioLimit) ∧
          (st = .streamEnd → e.1 = .errRatioLimit)) := by
    obtain ⟨out, hret, hused⟩ := hind c hfits
    obtain ⟨e, hret', hsame, hexceeds⟩ := limited_returns ⟨rfl, hfin⟩ r.maxRatio hret
    have hd : (d.limited 0).limited r.maxRatio = d := by
      rw [← hratio]
      rfl
    have hstart : (Whole.start (d.limited 0) r .empty).limited r.maxRatio = .start d r .empty := by
      rw [Whole.limited, Whole.start, Whole.start]
      dsimp only
      rw [hd]
    rw [hstart] at hret'
    refine ⟨e, (runsWhole_decode henc hnew c _ e).mpr hret', fun hno => ?_, hexceeds⟩
    rw [hsame hno]
    exact ⟨rfl, hused⟩
  obtain ⟨e₁, hrun₁, hsame₁, hexceeds₁⟩ := hrun c₁ h₁
  obtain ⟨e₂, hrun₂, hsame₂, hexceeds₂⟩ := hrun c₂ h₂
  refine ⟨e₁, e₂, hrun₁, hrun₂, fun hno₁ hno₂ => ?_, fun hend => ?_⟩
  · exact ⟨(hsame₁ hno₁).1.trans (hsame₂ hno₂).1.symm, (hsame₁ hno₁).2.trans (hsame₂ hno₂).2.symm⟩
  · have hst : st = .streamEnd := by
      by_cases hover : RatioExceeded d r c₁
      · rcases (hexceeds₁ hover).1 with hst | hst
        · exact hst.symm.trans hend
        · rw [hend] at hst
          cases hst
      · exact (hsame₁ hover).1.symm.trans hend
    have hno₁ : ¬ RatioExceeded d r c₁ := fun hover => by
      have := (hexceeds₁ hover).2 hst
      rw [hend] at this
      cases this
    refine ⟨hno₁, ?_⟩
    by_cases hover : RatioExceeded d r c₂
    · exact .inr ⟨hover, (hexceeds₂ hover).2 hst⟩
    · exact .inl ⟨hover, (hsame₂ hover).1.trans hst, (hsame₂ hover).2.trans (hsame₁ hno₁).2.symm⟩

/-- The same stream under the same ratio, in one slice and three bytes at a time. -/
theorem ratioVerdict_chunked :
    ¬ ∀ (v : CodecVtable) (lookup : CodecId → Option CodecVtable) (r : RunOpts)
      (_ : r.encode = false) (d : Decoder v) (_ : decoderNew lookup r.decoderOpts = .ok ⟨v, d⟩)
      (st : Status) (bytes : List UInt8) (_ : SplitIndependent d r st bytes) (c₁ c₂ : Chunking)
      (_ : bytes.length + c₁.outChunk < wordSize) (_ : bytes.length + c₂.outChunk < wordSize)
      (e₁ e₂ : Status × OutBuf) (_ : RunsWhole lookup (r.chunked c₁) .empty e₁)
      (_ : RunsWhole lookup (r.chunked c₂) .empty e₂),
      e₁.1 = .streamEnd → e₂.1 ≠ .errRatioLimit := by
  intro hall
  exact hall _ _ _ rfl _ earlyRun_new _ _ earlyRun_splitIndependent wholeChunk threeBytes
    (by decide) (by decide) _ _ earlyRun_whole earlyRun_threeBytes rfl rfl

/-- That stream in one slice, beside three bytes at a time. -/
theorem ratioVerdict_chunking_earlyRun :
    ∃ e₁ e₂, RunsWhole (rawOnly earlyRun) (earlyRunOpts.chunked wholeChunk) .empty e₁ ∧
      RunsWhole (rawOnly earlyRun) (earlyRunOpts.chunked threeBytes) .empty e₂ ∧
      (e₁.1 = .streamEnd → e₂.1 = .streamEnd ∨ e₂.1 = .errRatioLimit) := by
  obtain ⟨e₁, e₂, hrun₁, hrun₂, -, hend⟩ := ratioVerdict_chunking (r := earlyRunOpts) rfl
    earlyRun_new earlyRun_splitIndependent wholeChunk threeBytes (by decide) (by decide)
  refine ⟨e₁, e₂, hrun₁, hrun₂, fun h => ?_⟩
  rcases (hend h).2 with ⟨-, hst, -⟩ | ⟨-, hst⟩
  · exact .inl hst
  · exact .inr hst

end Zukomp
