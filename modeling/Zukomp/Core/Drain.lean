import Zukomp.Core.Identity
import Zukomp.Core.StreamEnd

/-! # What a decoder holds back

A decoder that asks for input may still hold bytes that it has decoded. It is quiet when no call
with nothing to read makes it write.
-/

namespace Zukomp

variable {v : CodecVtable}

theorem decoderCall_needInput {d : Decoder v} {buf : Buffer} {mode : Flush}
    (h : (decoderCall d buf mode).status = .needInput) :
    decoderCall d buf mode = d.settle buf (v.decoderProcess d.state (d.shown buf) mode) ∧
      (v.decoderProcess d.state (d.shown buf) mode).1 = .needInput := by
  unfold decoderCall at h ⊢
  by_cases hbuf : checkBuffer buf ≠ .ok
  · rw [if_pos hbuf] at h
    have herr := checkBuffer_isError hbuf
    rw [show checkBuffer buf = .needInput from h] at herr
    cases herr
  rw [if_neg hbuf] at h ⊢
  by_cases hfin : d.finished = true
  · rw [if_pos hfin] at h
    dsimp only at h
    split_ifs at h
  rw [if_neg hfin] at h ⊢
  by_cases hflush : mode = .flush ∧ ¬ v.can canFlush
  · rw [if_pos hflush] at h
    cases h
  rw [if_neg hflush] at h ⊢
  obtain ⟨capped, allowed, produced, unread, -, hstatus, -⟩ :=
    d.settle_judged buf (v.decoderProcess d.state (d.shown buf) mode)
  have hjudged := h ▸ hstatus
  have hverdict := Decoder.verdict_of_not_error (by rw [← hjudged]; rfl)
  rw [hverdict] at hjudged
  exact ⟨rfl, hjudged.symm⟩

/-! ## Quiet decoders -/

/-- When a codec's decoder is quiet. `Inv` holds throughout its life, and `Tells` of the room that
is to be left for a request for input to tell that the decoder is quiet. -/
structure DecoderDrain (v : CodecVtable) where
  process : v.Dec → Window → Flush → Status × v.Dec × Window
  lifted : v.decoderProcess = onBuffer process
  Inv : v.Dec → Prop
  Quiet : v.Dec → Prop
  Tells : ℕ → Prop
  advances : ∀ s w mode, Window.Advances w (process s w mode).2.2
  inv_new : ∀ {o s}, v.decoderNew o = .ok s → Inv s
  inv_process : ∀ {s} w mode, Inv s → Inv (process s w mode).2.1
  inv_reset : ∀ {reset s} o, v.decoderReset = some reset → Inv s → Inv (reset s o).2
  quiet : ∀ {s w mode}, Inv s → Quiet s → w.input = [] → mode ≠ .finish →
    (process s w mode).2.2.written = w.written ∧ Quiet (process s w mode).2.1
  asks : ∀ {s w}, Inv s → (process s w .run).1 = .needInput → Tells (process s w .run).2.2.room →
    Quiet (process s w .run).2.1

/-- A call before the end of the stream that offers nothing to read, with any window. -/
def DecoderOp.Polls : DecoderOp → Prop
  | .process buf mode => buf.unread = [] ∧ mode ≠ .finish
  | .reset _ => False

namespace DecoderDrain

variable (k : DecoderDrain v)

theorem inv_reached {lookup : CodecId → Option CodecVtable} {opts : DecoderOpts} {d : Decoder v}
    (hnew : decoderNew lookup opts = .ok ⟨v, d⟩) {s : Session v} (hs : Session.Reached d s) :
    k.Inv s.dec.state := by
  refine Session.Run.state_inv (fun {s} buf mode h => ?_) k.inv_reset
    (k.inv_new (decoderNew_ok hnew).2) hs
  rw [k.lifted]
  exact k.inv_process buf.window mode h

/-- A poll of a quiet decoder writes nothing and leaves it quiet. -/
theorem poll {s : Session v} (hinv : k.Inv s.dec.state) (hquiet : k.Quiet s.dec.state)
    {buf : Buffer} (hread : buf.unread = []) {mode : Flush} (hmode : mode ≠ .finish) :
    (s.next (.process buf mode)).given = s.given ∧
      k.Inv (s.next (.process buf mode)).dec.state ∧
      k.Quiet (s.next (.process buf mode)).dec.state := by
  have hdec : (s.next (.process buf mode)).dec = (decoderCall s.dec buf mode).dec := rfl
  have hgiven : (s.next (.process buf mode)).given =
      s.given + ((decoderCall s.dec buf mode).buf.dstPos - buf.dstPos) := rfl
  rw [hdec, hgiven]
  rcases decoderCall_cases s.dec buf mode with ⟨hsame, hbuf, -⟩ | ⟨-, -, -, hcall⟩
  · rw [hsame, hbuf]
    exact ⟨by omega, hinv, hquiet⟩
  · have hinput : (s.dec.shown buf).window.input = [] := by simp [Buffer.window, hread]
    obtain ⟨hwritten, hnext⟩ := k.quiet hinv hquiet hinput hmode
    have hdst : (s.dec.settle buf (v.decoderProcess s.dec.state (s.dec.shown buf) mode)).buf.dstPos
        = buf.dstPos := by
      rw [k.lifted]
      unfold Decoder.settle onBuffer
      dsimp only
      have hnone : (k.process s.dec.state (s.dec.shown buf).window mode).2.2.written = [] := hwritten
      split_ifs <;> simp [Buffer.advance, hnone]
    rw [hcall, hdst, k.lifted]
    exact ⟨by omega, k.inv_process _ mode hinv, hnext⟩

/-- However often it is polled, a quiet decoder writes nothing. -/
theorem polled {s : Session v} (hinv : k.Inv s.dec.state) (hquiet : k.Quiet s.dec.state)
    {s' : Session v} (h : Session.Later (fun _ op => op.Polls) s s') :
    s'.given = s.given ∧ k.Inv s'.dec.state ∧ k.Quiet s'.dec.state := by
  induction h with
  | here => exact ⟨rfl, hinv, hquiet⟩
  | process _ buf mode hop ih =>
    obtain ⟨hgiven, hinv, hquiet⟩ := ih
    obtain ⟨hnone, hnext⟩ := k.poll hinv hquiet hop.1 hop.2
    exact ⟨hnone.trans hgiven, hnext⟩
  | reset _ _ hop => exact hop.elim

theorem asked {d : Decoder v} (hinv : k.Inv d.state) (hceil : d.opts.ceiling = none) {buf : Buffer}
    (hask : (decoderCall d buf .run).status = .needInput)
    (htells : k.Tells (decoderCall d buf .run).buf.availOut) :
    k.Inv (decoderCall d buf .run).dec.state ∧ k.Quiet (decoderCall d buf .run).dec.state := by
  obtain ⟨hcall, hcodec⟩ := decoderCall_needInput hask
  have hshown : d.shown buf = buf := by simp [Decoder.shown, d.allowance_none hceil]
  rw [hshown, k.lifted] at hcall hcodec
  obtain ⟨u, o, hmoved⟩ := k.advances d.state buf.window .run
  have hroom : (d.settle buf (onBuffer k.process d.state buf .run)).buf.availOut =
      (k.process d.state buf.window .run).2.2.room := by
    rw [← (Buffer.advance_moved hmoved).2.2]
    unfold Decoder.settle onBuffer
    dsimp only
    rw [d.allowance_none hceil]
    rfl
  rw [hcall] at htells ⊢
  rw [hroom] at htells
  exact ⟨k.inv_process _ .run hinv, k.asks hinv hcodec htells⟩

end DecoderDrain

/-- The identity decoder keeps no byte. -/
def identityDrain : DecoderDrain identityCodec where
  process := identityProcess
  lifted := identityCodec_decodes
  advances _ w mode := ⟨_, _, identityProcess_moved w mode⟩
  Inv _ := True
  Quiet _ := True
  Tells _ := True
  inv_new _ := trivial
  inv_process _ _ _ := trivial
  inv_reset _ _ _ := trivial
  quiet := by
    intro s w mode _ _ hw _
    simp [identityProcess, hw]
  asks _ _ _ := trivial

end Zukomp
