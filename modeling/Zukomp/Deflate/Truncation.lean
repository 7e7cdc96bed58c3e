import Zukomp.Deflate.Compressor

/-! # Silent truncation

`mz_deflate` is shown at most 2^31 - 1 bytes at a time, and is told to finish whether or not that
was all. Where it takes the whole of a view that leaves bytes out, it ends the body before them.
-/

namespace Zukomp

open Library

variable {Body : Progressive UInt8 → Prop} {wrap : WrapKind} {level : ℤ} {M : Miniz}
  {codec : CodecId}

def UncutOneShot (e : Encoder (deflateVtable M codec wrap)) (src : List UInt8) (dst : Option ℕ)
    (cap : ℕ) : Prop :=
  ∀ y, Reaches (oneShotTurn fun e buf => encoderProcess e buf .finish) (e, oneShotBuffer src dst cap) y →
    Uncut y.1 y.2 .finish

/-- A one-shot compression in which nothing is cut covers its whole source. -/
theorem oneShot_covers {D : M.deflate.Deflates Body} {e : Encoder (deflateVtable M codec wrap)}
    (hstart : WritesOut D level none (Encoding.start e)) {src : List UInt8} {dst : Option ℕ}
    {cap : ℕ} (hcut : UncutOneShot e src dst cap) {buf : Buffer}
    (h : oneShot (fun e buf => encoderProcess e buf .finish) e src dst cap = (.ok, buf)) :
    buf.srcPos = src.length ∧ Covered Body wrap level src buf.stored := by
  let turn := oneShotTurn fun (e : Encoder (deflateVtable M codec wrap)) buf =>
    encoderProcess e buf .finish
  have hpost : (oneShot (fun e buf => encoderProcess e buf .finish) e src dst cap).1 = .ok →
      (oneShot (fun e buf => encoderProcess e buf .finish) e src dst cap).2.srcPos = src.length ∧
        Covered Body wrap level src
          (oneShot (fun e buf => encoderProcess e buf .finish) e src dst cap).2.stored := by
    unfold oneShot
    refine runLoop_keeps
      (fun y => Reaches turn (e, oneShotBuffer src dst cap) y ∧ ∃ x offered,
        WritesOut D level offered x ∧ x.enc = y.1 ∧ x.given = y.2.stored ∧
          x.taken ++ y.2.unread = src ∧ y.2.srcSize = src.length ∧
          ∀ z, offered = some z → z = src)
      (fun r : Status × Buffer => r.1 = .ok →
        r.2.srcPos = src.length ∧ Covered Body wrap level src r.2.stored) ?_ (by simp)
      ⟨.refl, Encoding.start e, none, hstart, rfl, rfl, by simp [Encoding.start], rfl, by simp⟩ _
    rintro ⟨_, buf⟩ ⟨hreach, x, offered, hwrites, rfl, hgiven, htaken, hsize, hoffered⟩
    dsimp only at hgiven htaken hsize
    have huncut : Uncut x.enc buf .finish := hcut _ hreach
    have hoffer (z : List UInt8) (hz : offered = some z) : x.taken ++ buf.unread = z :=
      htaken.trans (hoffered z hz).symm
    obtain ⟨hnext, -⟩ : WritesOut D level (some (x.taken ++ buf.unread)) (x.next buf .finish) ∧ _ :=
      hwrites.next hoffer huncut fun _ => rfl
    have hmoves (w : Window) (mode : Flush) : ∃ u o,
        (deflateProcess (E := M.deflate) x.enc.state w mode).2.2 = (w.take u).put o := by
      obtain ⟨u, o, hm⟩ := deflateProcess_advances x.enc.state w mode
      exact ⟨u, o, hm.eq⟩
    obtain ⟨hgiven', htaken'⟩ :=
      @Encoding.next_buffer _ deflateProcess rfl x hmoves src buf hgiven htaken .finish
    have hsize' : (encoderProcess x.enc buf .finish).2.2.srcSize = buf.srcSize := by
      rcases @encoderProcess_cases _ deflateProcess rfl x.enc buf .finish with ⟨hsame, -⟩ | ⟨-, hcall⟩
      · rw [hsame]
      · rw [hcall]
        rfl
    rcases oneShotTurn_cases (fun e buf => encoderProcess e buf .finish) x.enc buf with
      hgo | ⟨st, hret, hend⟩
    · rw [hgo]
      exact ⟨hreach.tail hgo, _, _, hnext, rfl, hgiven', htaken', hsize'.trans hsize,
        fun z hz => (Option.some.inj hz).symm.trans htaken⟩
    · rw [hret]
      intro hok
      obtain ⟨hspent, hcovered⟩ := hwrites.endsWhole hoffer huncut (hend hok)
      rw [htaken, hgiven'] at hcovered
      exact ⟨hspent.trans hsize, hcovered⟩
  rw [h] at hpost
  exact hpost rfl

/-! ## The end of the stream -/

def oneBlock (x : List UInt8) : Option (Progressive UInt8) := some (fixedBody x)

theorem oneBlock_text (x : List UInt8) (c : Progressive UInt8) (h : oneBlock x = some c) :
    c.text = x := by
  cases h
  rfl

abbrev oneBlockCodec (wrap : WrapKind) : CodecVtable := refCodec oneBlock (refDeflate oneBlock) wrap

abbrev oneBlockEncoder (wrap : WrapKind) : Encoder (oneBlockCodec wrap) :=
  refEncoder oneBlock (refDeflate oneBlock) wrap

/-- The reference compressor ends a fresh raw stream in its first call, with what it was shown. -/
theorem refDeflate_ends {s : DeflateState (refDeflate oneBlock)} (hs : s.state = .body)
    (hwrap : s.wrap = .none) (henc : s.encoder = true) (hmz : s.mz = ⟨[], none⟩) {w : Window}
    (hroom : (fixedCode (w.input.take mzClamp)).length ≤ min w.room mzClamp) :
    ∃ s', deflateProcess s w .finish = (.streamEnd, s',
      (w.take (w.input.take mzClamp).length).put (fixedCode (w.input.take mzClamp))) := by
  let r : MzStep (refDeflate oneBlock).State := ⟨.streamEnd, ⟨w.input.take mzClamp, some []⟩,
    (w.input.take mzClamp).length, fixedCode (w.input.take mzClamp)⟩
  have hcall : engineCall s w .finish = r := by
    change refDeflateStep oneBlock s.mz (w.input.take mzClamp) (min w.room mzClamp)
      (engineFlush s .finish) = _
    rewrite [hmz, engineFlush, if_neg (by simp [henc])]
    change RefDeflate.give (w.input.take mzClamp) (fixedCode (w.input.take mzClamp)) _ _ = _
    rewrite [RefDeflate.give, if_pos hroom, List.drop_eq_nil_of_le hroom,
      List.take_of_length_le hroom]
    rfl
  have hpos := fixedCode_pos (w.input.take mzClamp)
  have hwrap' : (afterEngine s w r).wrap = .none := by rw [afterEngine_wrap, hwrap]
  have hturn : deflateStep .finish (s, w) = .inr (.streamEnd,
      { afterEngine s w r with state := .done }, (w.take r.used).put r.out) := by
    unfold deflateStep
    dsimp only
    rw [hs]
    dsimp only
    unfold bodyStep
    rw [if_neg (by omega), hcall]
    dsimp only
    rw [if_pos rfl, if_neg (not_not.mpr hwrap')]
  exact ⟨_, (deflateProcess_returns s w .finish).unique (.done hturn)⟩

/-- 2^31 zero bytes in one buffer under `ZU_FINISH`: the last is dropped. -/
theorem finish_truncates : ¬ ∀ (M : Miniz) (Body : Progressive UInt8 → Prop)
    (_ : M.deflate.Deflates Body) (codec : CodecId) (wrap : WrapKind)
    (lookup : CodecId → Option CodecVtable) (opts : EncoderOpts)
    (e : Encoder (deflateVtable M codec wrap)),
    encoderNew lookup opts = .ok ⟨deflateVtable M codec wrap, e⟩ →
      ∀ offered x, Encoding.Supplied e offered x → ∀ buf : Buffer,
        (∀ y, offered = some y → x.taken ++ buf.unread = y) →
          EndsWhole Body (DeflateState.level e.state) x buf := by
  intro hall
  obtain ⟨zeros, hzeros⟩ : ∃ l : List UInt8, l = List.replicate (2 ^ 31) 0 := ⟨_, rfl⟩
  have hlen : zeros.length = 2 ^ 31 := by rw [hzeros, List.length_replicate]
  let buf : Buffer := .ofParts zeros (2 ^ 24)
  have hends := hall ⟨refDeflate oneBlock, refDeflate oneBlock⟩ _ (refDeflates oneBlock_text)
    WrapKind.none.codecId .none _ _ _ (refEncoder_new ..) none _ .new buf (by simp)
  have hview : buf.window.input.take mzClamp = List.replicate (2147483646 + 1) 0 := by
    have hmin : min mzClamp (2 ^ 31) = 2147483646 + 1 := by norm_num [mzClamp]
    rw [Buffer.window_ofParts, hzeros, List.take_replicate, hmin]
  have hroom : (fixedCode (buf.window.input.take mzClamp)).length ≤ min buf.window.room mzClamp := by
    rw [hview, length_fixedCode_zeros, Buffer.window_ofParts]
    norm_num [mzClamp]
  obtain ⟨s', hcall⟩ : ∃ s', deflateProcess (E := refDeflate oneBlock)
      (oneBlockEncoder .none).state buf.window .finish = (.streamEnd, s', _) :=
    refDeflate_ends rfl rfl rfl rfl hroom
  have hproc := @encoderProcess_calls _ deflateProcess rfl (oneBlockEncoder .none) buf .finish
    (checkBuffer_ofParts _ _) rfl (by simp)
  rw [hcall, hview, List.length_replicate] at hproc
  have hspent : (encoderProcess (oneBlockEncoder .none) buf .finish).2.2.srcPos = buf.srcSize :=
    (hends (congrArg Prod.fst hproc)).1
  rw [hproc] at hspent
  have hshort : 0 + (zeros.length - (zeros.drop 2147483647).length) = zeros.length := by
    rw [Buffer.window_ofParts] at hspent
    exact hspent
  rw [List.length_drop, hlen] at hshort
  omega

/-- In every run in which the engine never takes the whole of a view that leaves bytes out, the
call under `ZU_FINISH` that ends the stream has consumed all that was offered, and the trailer
covers it; so has a one-shot compression that succeeds. -/
theorem finish_covers (D : M.deflate.Deflates Body) {lookup : CodecId → Option CodecVtable}
    {opts : EncoderOpts} {e : Encoder (deflateVtable M codec wrap)}
    (hnew : encoderNew lookup opts = .ok ⟨deflateVtable M codec wrap, e⟩) :
    (∀ offered x, Encoding.SuppliedBy Uncut e offered x → ∀ buf : Buffer,
      (∀ y, offered = some y → x.taken ++ buf.unread = y) → Uncut x.enc buf .finish →
        EndsWhole Body (DeflateState.level e.state) x buf) ∧
    ∀ (src : List UInt8) (dst : Option ℕ) (cap : ℕ) (buf : Buffer), UncutOneShot e src dst cap →
      compressOne lookup opts src dst cap = (.ok, buf) →
        buf.srcPos = src.length ∧ Covered Body wrap (DeflateState.level e.state) src buf.stored := by
  have hstart := WritesOut.start D hnew
  refine ⟨fun offered x hx buf hoffer hcut =>
    (suppliedBy_writesOut hstart hx).endsWhole hoffer hcut, fun src dst cap buf hcut hok => ?_⟩
  unfold compressOne at hok
  split at hok
  · cases hok
  · rw [hnew] at hok
    exact oneShot_covers hstart hcut hok

/-- The letter `a` in one buffer, through zlib. -/
theorem finish_covers_letter :
    EndsWhole (fun c => ∃ x, oneBlock x = some c) mzDefaultLevel
      (Encoding.start (oneBlockEncoder .zlib)) (.ofParts [0x61] 64) ∧
    (encoderProcess (oneBlockEncoder .zlib) (.ofParts [0x61] 64) .finish).1 = .streamEnd := by
  have hsmall : Uncut (oneBlockEncoder .zlib) (.ofParts [0x61] 64) .finish :=
    not_cuts_of_le (by rw [Buffer.window_ofParts]; decide)
  refine ⟨?_, by decide⟩
  exact (finish_covers (refDeflates oneBlock_text) (refEncoder_new ..)).1 none _ .new _ (by simp)
    hsmall

end Zukomp
