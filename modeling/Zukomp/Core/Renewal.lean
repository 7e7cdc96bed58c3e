import Zukomp.Core.Encoding
import Zukomp.Core.Identity
import Zukomp.Core.Sessions
import Zukomp.Library.Lockstep

/-! # What a reset leaves behind

A codec renews where its reset leaves a state that no later call can tell from a new one,
after any history. The handle around it then starts afresh too.
-/

namespace Zukomp

open Library

/-- Results of a codec's call that differ at most in what no later call can tell. -/
structure SameResult {σ : Type} (Same : σ → σ → Prop) (r r' : Status × σ × Window) : Prop where
  status : r.1 = r'.1
  state : Same r.2.1 r'.2.1
  window : r.2.2 = r'.2.2

variable {v : CodecVtable}

/-! ## Decoders -/

/-- A decoder that renews. `Inv` holds throughout its life, and `Same` is what its calls
cannot tell apart. -/
structure DecoderRenewal (v : CodecVtable) where
  process : v.Dec → Window → Flush → Status × v.Dec × Window
  lifted : v.decoderProcess = onBuffer process
  Inv : v.Dec → Prop
  Same : v.Dec → v.Dec → Prop
  inv_new : ∀ {o s}, v.decoderNew o = .ok s → Inv s
  inv_process : ∀ {s} w mode, Inv s → Inv (process s w mode).2.1
  inv_reset : ∀ {reset s} o, v.decoderReset = some reset → Inv s → Inv (reset s o).2
  same_process : ∀ {s t} w mode, Same s t → SameResult Same (process s w mode) (process t w mode)
  renews : ∀ {reset s o t}, v.decoderReset = some reset → Inv s → (reset s o).1 = .ok →
    v.decoderNew o = .ok t → Same (reset s o).2 t

/-- A call of the driver and all that the caller can read afterwards. -/
def decoderAnswer (d : Decoder v) (call : Buffer × Flush) :
    (Status × Buffer × UInt64 × UInt64) × Decoder v :=
  let r := decoderProcess d call.1 call.2
  ((r.1, r.2.2, r.2.1.totalIn, r.2.1.totalOut), r.2.1)

namespace DecoderRenewal

variable (k : DecoderRenewal v)

def SameHandle (d d' : Decoder v) : Prop :=
  k.Same d.state d'.state ∧ d' = { d with state := d'.state }

variable {k}

theorem decoderCall_inv {d : Decoder v} (h : k.Inv d.state) (buf : Buffer) (mode : Flush) :
    k.Inv (decoderCall d buf mode).dec.state := by
  rcases decoderCall_cases d buf mode with ⟨hd, -⟩ | ⟨-, -, -, hcall⟩
  · rw [hd]
    exact h
  · rw [hcall, k.lifted]
    exact k.inv_process _ mode h

theorem decoderReset_inv {d : Decoder v} (h : k.Inv d.state) (o : Option DecoderOpts) :
    k.Inv (decoderReset d o).2.state := by
  unfold decoderReset
  dsimp only
  split_ifs
  · exact h
  · exact h
  · split
    · exact h
    · next reset hreset =>
      have hinv := k.inv_reset (copyDecoderOpts (o.getD d.opts)) hreset h
      split
      · next heq => rw [heq] at hinv; exact hinv
      · next heq => rw [heq] at hinv; exact hinv

theorem reached_inv {d : Decoder v} (hd : k.Inv d.state) {s : Session v}
    (h : Session.Reached d s) : k.Inv s.dec.state := by
  refine Session.Run.invariant (fun s => k.Inv s.dec.state) hd (fun s op hs _ => ?_) h
  cases op with
  | process buf mode => exact decoderCall_inv hs buf mode
  | reset o =>
    rw [Session.next_reset_dec]
    exact decoderReset_inv hs o

theorem settle_same (d : Decoder v) (buf : Buffer) {s : v.Dec} {r r' : Status × v.Dec × Window}
    (h : SameResult k.Same r r') :
    let o := d.settle buf (r.1, r.2.1, (d.shown buf).advance r.2.2)
    let o' := Decoder.settle { d with state := s } buf
      (r'.1, r'.2.1, (d.shown buf).advance r'.2.2)
    o.status = o'.status ∧ o.buf = o'.buf ∧ k.SameHandle o.dec o'.dec := by
  obtain ⟨st, t, w⟩ := r
  obtain ⟨st', t', w'⟩ := r'
  obtain ⟨hst, hsame, hw⟩ := h
  simp only at hst hsame hw
  subst hst hw
  exact ⟨rfl, rfl, hsame, rfl⟩

/-- A call over such handles reads and writes the same and leaves such handles. -/
theorem decoderCall_same {d d' : Decoder v} (h : k.SameHandle d d') (buf : Buffer) (mode : Flush) :
    (decoderCall d buf mode).status = (decoderCall d' buf mode).status ∧
      (decoderCall d buf mode).buf = (decoderCall d' buf mode).buf ∧
      k.SameHandle (decoderCall d buf mode).dec (decoderCall d' buf mode).dec := by
  obtain ⟨hsame, hd⟩ := h
  generalize d'.state = s at hd hsame
  subst hd
  unfold decoderCall
  by_cases hbuf : checkBuffer buf ≠ .ok
  · rw [if_pos hbuf, if_pos hbuf]
    exact ⟨rfl, rfl, hsame, rfl⟩
  rw [if_neg hbuf, if_neg hbuf]
  by_cases hfin : d.finished = true
  · rw [if_pos hfin, if_pos hfin]
    exact ⟨rfl, rfl, hsame, rfl⟩
  rw [if_neg hfin, if_neg hfin]
  by_cases hmode : mode = .flush ∧ ¬ v.can canFlush
  · rw [if_pos hmode, if_pos hmode]
    exact ⟨rfl, rfl, hsame, rfl⟩
  rw [if_neg hmode, if_neg hmode, k.lifted]
  exact settle_same d buf (k.same_process (d.shown buf).window mode hsame)

theorem decoderAnswer_same {d d' : Decoder v} (h : k.SameHandle d d') (call : Buffer × Flush) :
    (decoderAnswer d call).1 = (decoderAnswer d' call).1 ∧
      k.SameHandle (decoderAnswer d call).2 (decoderAnswer d' call).2 := by
  obtain ⟨hst, hbuf, hsame⟩ := decoderCall_same h call.1 call.2
  refine ⟨?_, hsame⟩
  have hin : (decoderCall d call.1 call.2).dec.totalIn =
      (decoderCall d' call.1 call.2).dec.totalIn := by rw [hsame.2]
  have hout : (decoderCall d call.1 call.2).dec.totalOut =
      (decoderCall d' call.1 call.2).dec.totalOut := by rw [hsame.2]
  simp only [decoderAnswer, decoderProcess, hst, hbuf, hin, hout]

/-- What a reset that succeeds leaves is what a new handle with its options is. -/
theorem reset_same {d₀ : Decoder v} {s : Session v} {lookup₀ : CodecId → Option CodecVtable}
    {opts₀ : DecoderOpts} (hnew₀ : decoderNew lookup₀ opts₀ = .ok ⟨v, d₀⟩)
    (hs : Session.Reached d₀ s) {o : Option DecoderOpts} {d : Decoder v}
    (hreset : decoderReset s.dec o = (.ok, d)) {lookup : CodecId → Option CodecVtable}
    {d' : Decoder v} (hnew : decoderNew lookup (o.getD s.dec.opts) = .ok ⟨v, d'⟩) :
    k.SameHandle d d' := by
  have hinv := reached_inv (k.inv_new (decoderNew_ok hnew₀).2) hs
  obtain ⟨hopts, hstate⟩ := decoderNew_ok hnew
  obtain ⟨hfin, hin, hout⟩ := decoderNew_fresh hnew
  unfold decoderReset at hreset
  dsimp only at hreset
  split_ifs at hreset
  · cases hreset
  · cases hreset
  · split at hreset
    · cases hreset
    · next reset hv =>
      split at hreset
      · next state heq =>
        cases hreset
        have hsame := k.renews (o := copyDecoderOpts (o.getD s.dec.opts)) (t := d'.state) hv hinv
          (by rw [heq]) (hopts ▸ hstate)
        rw [heq] at hsame
        refine ⟨hsame, ?_⟩
        obtain ⟨state', opts', finished', totalIn', totalOut'⟩ := d'
        simp only at hfin hin hout hopts
        subst hfin hin hout hopts
        rfl
      · next hne _ =>
        cases hreset
        exact (hne rfl).elim

/-- After it, every sequence of calls answers as a new handle does. -/
theorem answers_reset (k : DecoderRenewal v) {d₀ : Decoder v} {s : Session v}
    {lookup₀ : CodecId → Option CodecVtable} {opts₀ : DecoderOpts}
    (hnew₀ : decoderNew lookup₀ opts₀ = .ok ⟨v, d₀⟩) (hs : Session.Reached d₀ s)
    {o : Option DecoderOpts} {d : Decoder v} (hreset : decoderReset s.dec o = (.ok, d))
    {lookup : CodecId → Option CodecVtable} {d' : Decoder v}
    (hnew : decoderNew lookup (o.getD s.dec.opts) = .ok ⟨v, d'⟩) (calls : List (Buffer × Flush)) :
    answers decoderAnswer d calls = answers decoderAnswer d' calls :=
  answers_eq k.SameHandle (fun _ _ call h => decoderAnswer_same h call)
    (k.reset_same hnew₀ hs hreset hnew) calls

end DecoderRenewal

/-! ## Encoders -/

/-- The level in force after a request: none given, or the default, asks for no change. -/
def levelAfter (level : ℤ) (request : ℤ) : ℤ := if request = levelDefault then level else request

def levelAfterReset (level : ℤ) (o : Option EncoderOpts) : ℤ :=
  match o with
  | none => level
  | some o => levelAfter level o.level

/-- What holds of an encoder throughout its life, at the level last asked for. -/
structure EncoderUpkeep (v : CodecVtable) where
  process : v.Enc → Window → Flush → Status × v.Enc × Window
  lifted : v.encoderProcess = onBuffer process
  Inv : ℤ → v.Enc → Prop
  inv_new : ∀ {o s}, v.encoderNew o = .ok s → Inv o.level s
  inv_process : ∀ {level s} w mode, Inv level s → Inv level (process s w mode).2.1
  inv_reset : ∀ {reset level s o}, v.encoderReset = some reset → Inv level s →
    (reset s o).1 = .ok → Inv (levelAfter level o.level) (reset s o).2

/-- Nothing in particular. -/
def EncoderUpkeep.free (process : v.Enc → Window → Flush → Status × v.Enc × Window)
    (lifted : v.encoderProcess = onBuffer process) : EncoderUpkeep v where
  process := process
  lifted := lifted
  Inv _ _ := True
  inv_new _ := trivial
  inv_process _ _ _ := trivial
  inv_reset _ _ _ := trivial

/-- An encoder that renews. `Same` is what its calls cannot tell apart, and a reset answers
for what it finds `Clean` at the level it selects. -/
structure EncoderRenewal (v : CodecVtable) extends EncoderUpkeep v where
  Same : v.Enc → v.Enc → Prop
  Clean : ℤ → v.Enc → Prop
  Unused : v.Enc → Prop
  unused_clean : ∀ {s} level, Unused s → Clean level s
  unused_new : ∀ {o s}, v.encoderNew o = .ok s → Unused s
  unused_reset : ∀ {reset s o}, v.encoderReset = some reset → Unused s → (reset s o).1 = .ok →
    Unused (reset s o).2
  same_process : ∀ {s t} w mode, Same s t → SameResult Same (process s w mode) (process t w mode)
  renews : ∀ {reset level s o o' t}, v.encoderReset = some reset → Inv level s →
    Clean (levelAfter level o.level) s → (reset s o).1 = .ok → v.encoderNew o' = .ok t →
      o'.level = levelAfter level o.level → Same (reset s o).2 t

/-- A call of the driver and all that the caller can read afterwards. -/
def encoderAnswer (e : Encoder v) (call : Buffer × Flush) : (Status × Buffer) × Encoder v :=
  let r := encoderProcess e call.1 call.2
  ((r.1, r.2.2), r.2.1)

/-- The life of a handle by any calls and by resets that succeed, with the level last asked
for. -/
inductive EncoderLife (e₀ : Encoder v) : ℤ → Encoder v → Prop
  | new : EncoderLife e₀ e₀.opts.level e₀
  | process {level : ℤ} {e : Encoder v} (h : EncoderLife e₀ level e) (buf : Buffer) (mode : Flush) :
      EncoderLife e₀ level (encoderProcess e buf mode).2.1
  | reset {level : ℤ} {e e' : Encoder v} (h : EncoderLife e₀ level e) (o : Option EncoderOpts)
      (ok : encoderReset e o = (.ok, e')) : EncoderLife e₀ (levelAfterReset level o) e'

/-- A life without calls. -/
inductive EncoderIdle (e₀ : Encoder v) : Encoder v → Prop
  | new : EncoderIdle e₀ e₀
  | reset {e e' : Encoder v} (h : EncoderIdle e₀ e) (o : Option EncoderOpts)
      (ok : encoderReset e o = (.ok, e')) : EncoderIdle e₀ e'

/-- A reset that succeeds is the codec's, and keeps the options it is given. -/
theorem encoderReset_ok {e e' : Encoder v} {o : Option EncoderOpts}
    (h : encoderReset e o = (.ok, e')) :
    ∃ reset, v.encoderReset = some reset ∧
      reset e.state (copyEncoderOpts (o.getD e.opts)) = (.ok, e'.state) ∧
      e'.opts = copyEncoderOpts (o.getD e.opts) ∧ e'.finished = false := by
  unfold encoderReset at h
  dsimp only at h
  split_ifs at h with h1 h2 h3
  · cases h
  · cases h
  · exact absurd (congrArg Prod.fst h) h3
  · split at h
    · cases h
    · next reset hv =>
      split at h
      · next state heq =>
        cases h
        exact ⟨reset, hv, heq, rfl, rfl⟩
      · next hne _ =>
        cases h
        exact (hne rfl).elim

namespace EncoderUpkeep

variable (k : EncoderUpkeep v)

/-- The options a handle keeps ask for no other level than the last one asked for. -/
structure Living (level : ℤ) (e : Encoder v) : Prop where
  inv : k.Inv level e.state
  asks : e.opts.level = levelDefault ∨ e.opts.level = level

variable {k}

theorem Living.levelAfter {level : ℤ} {e : Encoder v} (h : k.Living level e)
    (o : Option EncoderOpts) :
    levelAfter level (copyEncoderOpts (o.getD e.opts)).level = levelAfterReset level o := by
  cases o with
  | some o => rfl
  | none =>
    change Zukomp.levelAfter level e.opts.level = level
    unfold Zukomp.levelAfter
    rcases h.asks with hd | hl
    · rw [if_pos hd]
    · rw [hl, ite_self]

theorem Living.process {level : ℤ} {e : Encoder v} (h : k.Living level e) (buf : Buffer)
    (mode : Flush) : k.Living level (encoderProcess e buf mode).2.1 := by
  rcases encoderProcess_cases k.lifted e buf mode with ⟨hsame, -⟩ | ⟨-, hcall⟩
  · have he : (encoderProcess e buf mode).2.1 = e := congrArg Prod.fst hsame
    rw [he]
    exact h
  · rw [hcall]
    exact ⟨k.inv_process buf.window mode h.inv, h.asks⟩

theorem Living.reset {level : ℤ} {e e' : Encoder v} (h : k.Living level e)
    {o : Option EncoderOpts} (ok : encoderReset e o = (.ok, e')) :
    k.Living (levelAfterReset level o) e' := by
  obtain ⟨reset, hv, heq, hopts, -⟩ := encoderReset_ok ok
  have hinv := k.inv_reset (o := copyEncoderOpts (o.getD e.opts)) hv h.inv (by rw [heq])
  rw [heq, h.levelAfter o] at hinv
  refine ⟨hinv, ?_⟩
  rw [hopts, ← h.levelAfter o, Zukomp.levelAfter]
  split_ifs with hd
  · exact .inl hd
  · exact .inr rfl

theorem life_living {lookup : CodecId → Option CodecVtable} {opts : EncoderOpts} {e₀ : Encoder v}
    (hnew : encoderNew lookup opts = .ok ⟨v, e₀⟩) {level : ℤ} {e : Encoder v}
    (h : EncoderLife e₀ level e) : k.Living level e := by
  induction h with
  | new => exact ⟨k.inv_new (encoderNew_ok hnew).2.1, .inr rfl⟩
  | process _ buf mode ih => exact ih.process buf mode
  | reset _ _ ok ih => exact ih.reset ok

end EncoderUpkeep

namespace EncoderRenewal

variable (k : EncoderRenewal v)

def SameHandle (e e' : Encoder v) : Prop := k.Same e.state e'.state ∧ e.finished = e'.finished

variable {k}

theorem encoderProcess_same {e e' : Encoder v} (h : k.SameHandle e e') (buf : Buffer)
    (mode : Flush) :
    (encoderProcess e buf mode).1 = (encoderProcess e' buf mode).1 ∧
      (encoderProcess e buf mode).2.2 = (encoderProcess e' buf mode).2.2 ∧
      k.SameHandle (encoderProcess e buf mode).2.1 (encoderProcess e' buf mode).2.1 := by
  obtain ⟨hsame, hfin⟩ := h
  unfold encoderProcess
  rw [← hfin]
  by_cases hbuf : checkBuffer buf ≠ .ok
  · rw [if_pos hbuf, if_pos hbuf]
    exact ⟨rfl, rfl, hsame, hfin⟩
  rw [if_neg hbuf, if_neg hbuf]
  by_cases hdone : e.finished = true
  · rw [if_pos hdone, if_pos hdone]
    exact ⟨rfl, rfl, hsame, hfin⟩
  rw [if_neg hdone, if_neg hdone]
  by_cases hmode : mode = .flush ∧ ¬ v.can canFlush
  · rw [if_pos hmode, if_pos hmode]
    exact ⟨rfl, rfl, hsame, hfin⟩
  rw [if_neg hmode, if_neg hmode, k.lifted]
  obtain ⟨hst, hstate, hw⟩ := k.same_process buf.window mode hsame
  unfold onBuffer
  dsimp only
  rw [hst, hw]
  exact ⟨rfl, rfl, hstate, rfl⟩

theorem encoderAnswer_same {e e' : Encoder v} (h : k.SameHandle e e') (call : Buffer × Flush) :
    (encoderAnswer e call).1 = (encoderAnswer e' call).1 ∧
      k.SameHandle (encoderAnswer e call).2 (encoderAnswer e' call).2 := by
  obtain ⟨hst, hbuf, hsame⟩ := encoderProcess_same h call.1 call.2
  exact ⟨Prod.ext hst hbuf, hsame⟩

/-- After a reset that succeeds and finds the codec clean, every sequence of calls answers as a
new handle does at the level last asked for. -/
theorem answers_reset (k : EncoderRenewal v) {lookup₀ : CodecId → Option CodecVtable}
    {opts₀ : EncoderOpts} {e₀ : Encoder v} (hnew₀ : encoderNew lookup₀ opts₀ = .ok ⟨v, e₀⟩)
    {level : ℤ} {e : Encoder v} (h : EncoderLife e₀ level e) {o : Option EncoderOpts}
    {e' : Encoder v} (hclean : k.Clean (levelAfterReset level o) e.state)
    (hreset : encoderReset e o = (.ok, e')) {lookup : CodecId → Option CodecVtable} {opts : EncoderOpts} {f : Encoder v}
    (hnew : encoderNew lookup opts = .ok ⟨v, f⟩) (hlevel : opts.level = levelAfterReset level o)
    (calls : List (Buffer × Flush)) :
    answers encoderAnswer e' calls = answers encoderAnswer f calls := by
  have hliving := k.life_living hnew₀ h
  obtain ⟨reset, hv, heq, -, hfin⟩ := encoderReset_ok hreset
  obtain ⟨hopts, hstate, hfin'⟩ := encoderNew_ok hnew
  have hsame : k.Same e'.state f.state := by
    rw [show e'.state = (reset e.state (copyEncoderOpts (o.getD e.opts))).2 by rw [heq]]
    rw [← hliving.levelAfter o] at hclean hlevel
    exact k.renews hv hliving.inv hclean (by rw [heq]) hstate (by rw [hopts, ← hlevel]; rfl)
  exact answers_eq k.SameHandle (fun _ _ call h => encoderAnswer_same h call)
    ⟨hsame, hfin.trans hfin'.symm⟩ calls

/-- A handle that has encoded nothing is clean. -/
theorem idle_clean (k : EncoderRenewal v) {lookup : CodecId → Option CodecVtable}
    {opts : EncoderOpts} {e₀ e : Encoder v} (hnew : encoderNew lookup opts = .ok ⟨v, e₀⟩)
    (h : EncoderIdle e₀ e) (level : ℤ) : k.Clean level e.state := by
  refine k.unused_clean level ?_
  induction h with
  | new => exact k.unused_new (encoderNew_ok hnew).2.1
  | reset _ o ok ih =>
    obtain ⟨reset, hv, heq, -, -⟩ := encoderReset_ok ok
    have hunused := k.unused_reset hv ih (congrArg Prod.fst heq)
    rwa [heq] at hunused

end EncoderRenewal

/-! ## The identity codec -/

def identityDecoderRenewal : DecoderRenewal identityCodec where
  process := identityProcess
  lifted := identityCodec_decodes
  Inv _ := True
  Same _ _ := True
  inv_new _ := trivial
  inv_process _ _ _ := trivial
  inv_reset _ _ _ := trivial
  same_process _ _ _ := ⟨rfl, trivial, rfl⟩
  renews _ _ _ _ := trivial

def identityEncoderRenewal : EncoderRenewal identityCodec where
  process := identityProcess
  lifted := identityCodec_encodes
  Inv _ _ := True
  Same _ _ := True
  inv_new _ := trivial
  inv_process _ _ _ := trivial
  inv_reset _ _ _ := trivial
  Clean _ _ := True
  Unused _ := True
  unused_clean _ _ := trivial
  unused_new _ := trivial
  unused_reset _ _ _ := trivial
  same_process _ _ _ := ⟨rfl, trivial, rfl⟩
  renews _ _ _ _ _ _ := trivial

end Zukomp
