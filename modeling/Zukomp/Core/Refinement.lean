import Zukomp.Core.Sink
import Zukomp.Library.Lockstep

/-! # The sink in memory does what the sink of bytes does

The drive loop over a block of memory, with the cursors of one buffer rebased on every call, goes step
by step with the loop over lists of bytes: it ends as that one does and leaves the same bytes, unless
the allocator refuses to grow the block.
-/

namespace Zukomp

open Library

/-! ## Buffers that show the same -/

namespace Buffer

/-- Two buffers that show a codec the same windows and have been given the same. -/
structure Alike (b b' : Buffer) : Prop where
  unread : b.unread = b'.unread
  room : b.availOut = b'.availOut
  dstPos : b.dstPos = b'.dstPos
  stored : b.stored = b'.stored
  exact : b.srcSize = b.srcPos + b.unread.length
  exact' : b'.srcSize = b'.srcPos + b'.unread.length

variable {b b' : Buffer}

theorem unread_advance (b : Buffer) (w : Window) :
    (b.advance w).unread = b.unread.drop (b.unread.length - w.input.length) := by
  rw [unread, unread, List.drop_drop]
  rfl

theorem exact_advance (h : b.srcSize = b.srcPos + b.unread.length) (w : Window) :
    (b.advance w).srcSize = (b.advance w).srcPos + (b.advance w).unread.length := by
  rw [unread_advance, List.length_drop]
  change b.srcSize = b.srcPos + (b.unread.length - w.input.length) + _
  omega

theorem Alike.advance (h : b.Alike b') (w : Window) : (b.advance w).Alike (b'.advance w) where
  unread := by rw [unread_advance, unread_advance, h.unread]
  room := by
    have hroom := h.room
    have hpos := h.dstPos
    unfold availOut at hroom ⊢
    change b.dstSize - (b.dstPos + _) = b'.dstSize - (b'.dstPos + _)
    omega
  dstPos := congrArg (· + w.written.length) h.dstPos
  stored := congrArg (· ++ w.written) h.stored
  exact := exact_advance h.exact w
  exact' := exact_advance h.exact' w

theorem Alike.spent (h : b.Alike b') : b.srcPos < b.srcSize ↔ b'.srcPos < b'.srcSize := by
  rw [h.exact, h.exact', h.unread]
  omega

end Buffer

/-- Two outcomes of a call over buffers that show the same, of handles that `lift` relates. -/
structure SameCall {η η' : Type*} (lift : η' → η) (b b' : Buffer) (c : Status × η × Buffer)
    (c' : Status × η' × Buffer) : Prop where
  status : c.1 = c'.1
  state : c.2.1 = lift c'.2.1
  buf : c.2.2.Alike c'.2.2
  read : ∃ n, c.2.2.srcPos = b.srcPos + n ∧ c'.2.2.srcPos = b'.srcPos + n

/-- Process entries that look at nothing but their windows. -/
def Uniform {η η' : Type*} (lift : η' → η) (process : η → Buffer → Flush → Status × η × Buffer)
    (process' : η' → Buffer → Flush → Status × η' × Buffer) : Prop :=
  ∀ h {b b' : Buffer} mode, b.Alike b' → checkBuffer b = .ok → checkBuffer b' = .ok →
    SameCall lift b b' (process (lift h) b mode) (process' h b' mode)

/-- A codec whose process entries do so. -/
structure CodecVtable.Uniform (v : CodecVtable) : Prop where
  encoder : Zukomp.Uniform id v.encoderProcess v.encoderProcess
  decoder : Zukomp.Uniform id v.decoderProcess v.decoderProcess

theorem onBuffer_uniform {σ : Type} (process : σ → Window → Flush → Status × σ × Window) :
    Uniform id (onBuffer process) (onBuffer process) := by
  intro s b b' mode h _ _
  have hwindow : b.window = b'.window := by
    rw [Buffer.window, Buffer.window, h.unread, h.room]
  unfold onBuffer
  rw [id, hwindow]
  refine ⟨rfl, rfl, h.advance _, _, rfl, ?_⟩
  rw [h.unread]
  rfl

variable {v : CodecVtable} {b b' : Buffer}

theorem CodecVtable.Uniform.of_windows (enc : v.Enc → Window → Flush → Status × v.Enc × Window)
    (dec : v.Dec → Window → Flush → Status × v.Dec × Window)
    (henc : v.encoderProcess = onBuffer enc) (hdec : v.decoderProcess = onBuffer dec) : v.Uniform :=
  ⟨henc ▸ onBuffer_uniform enc, hdec ▸ onBuffer_uniform dec⟩

theorem SameCall.refused {η : Type*} {s : η} {st : Status} (h : b.Alike b') :
    SameCall id b b' (st, s, b) (st, s, b') := ⟨rfl, rfl, h, 0, rfl, rfl⟩

theorem encoderProcess_uniform (hv : Uniform id v.encoderProcess v.encoderProcess) :
    Uniform id (@encoderProcess v) (@encoderProcess v) := by
  intro e b b' mode h hb hb'
  have hok : ¬ checkBuffer b ≠ .ok := not_not.mpr hb
  have hok' : ¬ checkBuffer b' ≠ .ok := not_not.mpr hb'
  unfold encoderProcess
  rw [id, if_neg hok, if_neg hok']
  by_cases hfin : e.finished = true
  · rw [if_pos hfin, if_pos hfin, if_congr h.spent rfl rfl]
    exact .refused h
  rw [if_neg hfin, if_neg hfin]
  by_cases hmode : mode = .flush ∧ ¬ v.can canFlush
  · rw [if_pos hmode, if_pos hmode]
    exact .refused h
  rw [if_neg hmode, if_neg hmode]
  have hcall := hv e.state mode h hb hb'
  rw [id] at hcall
  generalize v.encoderProcess e.state b mode = c at hcall
  generalize v.encoderProcess e.state b' mode = c' at hcall
  obtain ⟨st, s, a⟩ := c
  obtain ⟨st', s', a'⟩ := c'
  obtain ⟨hst, hs, hbuf, hread⟩ := hcall
  obtain rfl : st = st' := hst
  obtain rfl : s = s' := hs
  exact ⟨rfl, rfl, hbuf, hread⟩

theorem Decoder.shown_alike (d : Decoder v) (h : b.Alike b') : (d.shown b).Alike (d.shown b') := by
  unfold Decoder.shown
  rw [h.room]
  split_ifs
  · refine ⟨h.unread, ?_, h.dstPos, h.stored, h.exact, h.exact'⟩
    simp [Buffer.availOut]
  · exact h

/-- What the driver makes of a codec's result. -/
theorem Decoder.settle_sameCall (d : Decoder v) (h : b.Alike b') (hb : checkBuffer b = .ok)
    (hb' : checkBuffer b' = .ok) {c c' : Status × v.Dec × Buffer}
    (hc : SameCall id (d.shown b) (d.shown b') c c') :
    SameCall id b b' ((d.settle b c).status, (d.settle b c).dec, (d.settle b c).buf)
      ((d.settle b' c').status, (d.settle b' c').dec, (d.settle b' c').buf) := by
  obtain ⟨st, s, a⟩ := c
  obtain ⟨st', s', a'⟩ := c'
  obtain ⟨hst, hs, hbuf, n, hread, hread'⟩ := hc
  obtain rfl : st = st' := hst
  obtain rfl : s = s' := hs
  dsimp only at hbuf hread hread'
  rw [Decoder.shown_srcPos] at hread hread'
  have hn : cursorSub a.srcPos b.srcPos = n ∧ cursorSub a'.srcPos b'.srcPos = n := by
    rw [cursorSub, cursorSub, hread, hread']
    constructor <;> rw [if_pos (by omega)] <;> omega
  have hmade : cursorSub a.dstPos b.dstPos = cursorSub a'.dstPos b'.dstPos := by
    rw [hbuf.dstPos, h.dstPos]
  unfold Decoder.settle
  dsimp only
  rw [hn.1, hn.2, h.room, hmade, decide_eq_decide.mpr hbuf.spent]
  obtain ⟨-, hdst⟩ := checkBuffer_ok hb
  obtain ⟨-, hdst'⟩ := checkBuffer_ok hb'
  have hroom := h.room
  have hpos := h.dstPos
  unfold Buffer.availOut at hroom
  have hrestored : Buffer.Alike { a with dstSize := b.dstSize } { a' with dstSize := b'.dstSize } := by
    refine ⟨hbuf.unread, ?_, hbuf.dstPos, hbuf.stored, hbuf.exact, hbuf.exact'⟩
    have hafter := hbuf.dstPos
    unfold Buffer.availOut
    dsimp only
    omega
  refine ⟨rfl, rfl, ?_, n, ?_, ?_⟩
  · dsimp only
    split_ifs
    · exact hrestored
    · exact hbuf
  · dsimp only
    split_ifs <;> exact hread
  · dsimp only
    split_ifs <;> exact hread'

theorem decoderProcess_uniform (hv : Uniform id v.decoderProcess v.decoderProcess) :
    Uniform id (@decoderProcess v) (@decoderProcess v) := by
  intro d b b' mode h hb hb'
  have hok : ¬ checkBuffer b ≠ .ok := not_not.mpr hb
  have hok' : ¬ checkBuffer b' ≠ .ok := not_not.mpr hb'
  unfold decoderProcess decoderCall
  rw [id, if_neg hok, if_neg hok']
  by_cases hfin : d.finished = true
  · rw [if_pos hfin, if_pos hfin]
    dsimp only
    rw [if_congr (and_congr_left' h.spent) rfl rfl]
    exact .refused h
  rw [if_neg hfin, if_neg hfin]
  by_cases hmode : mode = .flush ∧ ¬ v.can canFlush
  · rw [if_pos hmode, if_pos hmode]
    exact .refused h
  rw [if_neg hmode, if_neg hmode]
  exact d.settle_sameCall h hb hb' (hv d.state mode (d.shown_alike h) (d.checkBuffer_shown hb)
    (d.checkBuffer_shown hb'))

/-! ## The two sinks -/

namespace Sink

variable {H : Heap} {h : H.State} {o : Sink} {out : OutBuf} {extra : ℕ}

structure Holds (o : Sink) (out : OutBuf) : Prop where
  contents : o.contents = out.used
  size : o.size = out.size
  consumed : o.consumed = out.consumed

theorem fresh_holds : fresh.Holds .empty := ⟨rfl, rfl, rfl⟩

theorem Holds.used (hh : o.Holds out) (hf : o.Fits) : o.used = out.used.length := by
  have hlen := congrArg List.length hh.contents
  rw [Sink.contents, List.length_take, hf.block, min_eq_left hf.used_le] at hlen
  exact hlen

/-- The allocator refuses the block that a reservation of `extra` bytes asks for. -/
def Refused (H : Heap) (h : H.State) (extra : ℕ) (o : Sink) : Prop :=
  ∃ needed next, sizeAdd o.used extra = .ok needed ∧ o.size < needed ∧
    grow o.size (needed - o.size) = .ok next ∧ (H.realloc h o.block next).1 = none

/-- What a reservation makes of the one and of the other. -/
inductive ReservedAs (H : Heap) (h : H.State) (extra : ℕ) (o : Sink) :
    Status × Sink × H.State → Except Status OutBuf → Prop
  | room {o' : Sink} {out' : OutBuf} (h' : H.State) (holds : o'.Holds out') :
      ReservedAs H h extra o (.ok, o', h') (.ok out')
  | overflow (h' : H.State) : ReservedAs H h extra o (.errMemory, o, h') (.error .errMemory)
  | refused (h' : H.State) {e : Except Status OutBuf} (refuses : Refused H h extra o) :
      ReservedAs H h extra o (.errMemory, o, h') e

theorem reserve_as (extra : ℕ) (hf : o.Fits) (hown : o.owner = true) (hh : o.Holds out) :
    ReservedAs H h extra o (o.reserve H h extra) (Zukomp.reserve out extra) := by
  have hreserved := reserve_reserved (h := h) extra hf hown
  unfold Sink.reserve at hreserved ⊢
  unfold Zukomp.reserve
  rw [← hh.used hf, ← hh.size]
  rw [if_neg (by simp [hown])] at hreserved ⊢
  rcases sizeAdd_cases o.used extra with ⟨hadd, -⟩ | ⟨hadd, -⟩
  swap
  · rw [hadd]
    exact .overflow h
  rw [hadd] at hreserved ⊢
  dsimp only at hreserved ⊢
  by_cases hroom : o.used + extra ≤ o.size
  · rw [if_pos hroom, if_pos hroom]
    exact .room h hh
  rw [if_neg hroom] at hreserved ⊢
  rw [if_neg hroom]
  rcases grow_cases (o.used + extra - o.size) hf.size_lt with ⟨next, hgrow, -⟩ | ⟨hgrow, -⟩
  swap
  · rw [hgrow]
    exact .overflow h
  rw [hgrow] at hreserved ⊢
  dsimp only at hreserved ⊢
  rcases hre : H.realloc h o.block next with ⟨_ | bigger, h'⟩
  · exact .refused h' ⟨_, next, hadd, not_le.mp hroom, hgrow, congrArg Prod.fst hre⟩
  rw [hre] at hreserved
  dsimp only at hreserved ⊢
  cases hreserved with
  | room fits owner used contents window =>
    exact .room h' ⟨contents.trans hh.contents, rfl, hh.consumed⟩

end Sink

/-! ## The two loops -/

/-- How a run over memory ends beside a run over bytes. -/
structure EndsAs (e : Status × Sink) (e' : Status × OutBuf) : Prop where
  status : e.1 = e'.1
  holds : e.2.Holds e'.2

/-- The results over memory are those over bytes, or the allocator has refused a block and the
sink has the bytes written before it did; there is a result wherever there is one over bytes. -/
structure Refines (Refused : Prop) (P : Status × Sink → Prop) (P' : Status × OutBuf → Prop) :
    Prop where
  ends : ∀ e, P e → (∃ e', P' e' ∧ EndsAs e e') ∨
    e.1 = .errMemory ∧ Refused ∧ ∀ e', P' e' → e.2.contents <+: e'.2.used
  returns : ∀ e', P' e' → ∃ e, P e

theorem Refines.single {Refused : Prop} {e : Status × Sink} {e' : Status × OutBuf}
    (h : EndsAs e e') : Refines Refused (fun x => x = e) fun x => x = e' where
  ends := by
    rintro _ rfl
    exact .inl ⟨e', rfl, h⟩
  returns _ _ := ⟨e, rfl⟩

theorem Refines.mono {Refused Refused' : Prop} {P : Status × Sink → Prop}
    {P' : Status × OutBuf → Prop} (h : Refines Refused P P') (himp : Refused → Refused') :
    Refines Refused' P P' where
  ends e he := (h.ends e he).imp_right fun hbroken => ⟨hbroken.1, himp hbroken.2.1, hbroken.2.2⟩
  returns := h.returns

theorem wholeTurn_written {η : Type} (process : η → Buffer → Flush → Status × η × Buffer)
    (r : RunOpts) (y : Whole η) :
    Turn (fun z => y.out.used <+: z.out.used) (fun e => y.out.used <+: e.2.used)
      (wholeTurn process r y) := by
  unfold wholeTurn
  dsimp only
  rw [Whole.refill_out]
  rcases hres : reserve y.out r.outChunk with st | out
  · exact List.prefix_rfl
  have hused := reserve_used hres
  unfold Whole.judge
  dsimp only
  rw [hused]
  split_ifs <;> exact List.prefix_append _ _

namespace Drive

variable {H : Heap} {η : Type*} {η' : Type} {lift : η' → η} {Held : η → Prop} {r : RunOpts}
  {o₀ : Sink} {x : Drive H η} {y : Whole η'} {log : Log}
  {process : η → Buffer → Flush → Status × η × Buffer}
  {process' : η' → Buffer → Flush → Status × η' × Buffer}

theorem Books.exact (h : Books r o₀ log x) :
    x.buf.srcSize = x.buf.srcPos + x.buf.unread.length := by
  have hcursors := h.cursors
  have hoffered := h.offered
  have hfed := h.fed_le
  rw [h.unread, List.length_drop, List.length_take, min_eq_left hfed]
  unfold consumed
  omega

/-- The run over memory beside the run over bytes, between two turns. -/
structure Tracks (lift : η' → η) (Held : η → Prop) (r : RunOpts) (o₀ : Sink) (x : Drive H η)
    (y : Whole η') : Prop where
  books : ∃ log, Books r o₀ log x
  held : Held x.handle
  handle : x.handle = lift y.handle
  slice : x.buf.unread = y.slice
  later : r.src.drop x.fed = y.later
  calls : x.calls = y.calls
  holds : x.sink.Holds y.out

/-- The run over memory breaks off with what the other has written so far. -/
structure BreaksOff (r : RunOpts) (x : Drive H η) (e : Status × Sink) (y : Whole η') : Prop where
  status : e.1 = .errMemory
  refuses : x.sink.Refused H x.heap r.outChunk
  contents : e.2.contents = y.out.used

theorem Tracks.later_length (h : Tracks lift Held r o₀ x y) :
    y.later.length = r.src.length - x.fed := by
  rw [← h.later, List.length_drop]

/-- Both hand over the next slice at the same time. -/
theorem Tracks.refill (h : Tracks lift Held r o₀ x y) :
    Tracks lift Held r o₀ (x.refill r) (y.refill r) := by
  obtain ⟨log, hbooks⟩ := h.books
  have hrefilled := hbooks.refill
  have hlater := h.later_length
  have hspent : x.buf.srcPos = x.buf.srcSize ↔ y.slice = [] := by
    have hexact := hbooks.exact
    rw [← h.slice, ← List.length_eq_zero_iff]
    omega
  unfold Drive.refill at hrefilled ⊢
  unfold Whole.refill
  by_cases hslice : y.slice = []
  swap
  · rw [if_neg hslice, if_neg fun hs => hslice (hspent.mp hs.1)]
    exact h
  rw [if_pos hslice]
  by_cases hmore : x.fed < r.src.length
  · rw [if_pos ⟨hspent.mpr hslice, hmore⟩] at hrefilled ⊢
    refine ⟨⟨log, hrefilled⟩, h.held, h.handle, ?_, ?_, h.calls, h.holds⟩
    · change ((r.src.drop x.fed).take (min (r.src.length - x.fed) r.inChunk)).drop 0 = _
      rw [List.drop_zero, h.later, ← hlater]
      rcases le_total y.later.length r.inChunk with hle | hle
      · rw [min_eq_left hle, List.take_length, List.take_of_length_le hle]
      · rw [min_eq_right hle]
    · change r.src.drop (x.fed + min (r.src.length - x.fed) r.inChunk) = _
      rw [← List.drop_drop, h.later, ← hlater]
      rcases le_total y.later.length r.inChunk with hle | hle
      · rw [min_eq_left hle, List.drop_length, List.drop_of_length_le hle]
      · rw [min_eq_right hle]
  · rw [if_neg fun hs => hmore hs.2] at hrefilled ⊢
    have hend : y.later = [] := List.length_eq_zero_iff.mp (by omega)
    refine ⟨⟨log, hbooks⟩, h.held, h.handle, ?_, ?_, h.calls, h.holds⟩
    · rw [h.slice, hslice, hend]
      exact List.take_nil.symm
    · rw [h.later, hend]
      exact List.drop_nil.symm

theorem Tracks.leaves (h : Tracks lift Held r o₀ x y) (st : Status) :
    EndsAs (x.leave st) (st, y.finish r y.out) := by
  obtain ⟨log, hbooks⟩ := h.books
  have hlater := h.later_length
  have hexact := hbooks.exact
  have hfed := hbooks.fed_le
  rw [h.slice] at hexact
  refine ⟨rfl, h.holds.contents, h.holds.size, ?_⟩
  change x.fed - (x.buf.srcSize - x.buf.srcPos) = r.src.length - y.later.length - y.slice.length
  omega

theorem Tracks.last (h : Tracks lift Held r o₀ x y) : x.last r = true ↔ y.later = [] := by
  have hlater := h.later_length
  rw [Drive.last, decide_eq_true_iff, ← List.length_eq_zero_iff]
  omega

theorem Tracks.mode (h : Tracks lift Held r o₀ x y) : x.mode r = y.mode r := by
  rw [Drive.mode, Whole.mode, if_congr h.last rfl rfl, h.calls]

/-- A turn of both makes room in both, or neither fits a size, or the allocator refuses. -/
inductive Prepared (lift : η' → η) (Held : η → Prop) (r : RunOpts) (o₀ : Sink) (Refused : Prop)
    (y : Whole η') : Status × Drive H η → Except Status OutBuf → Prop
  | room {x : Drive H η} {out : OutBuf} (tracks : Tracks lift Held r o₀ x { y with out := out })
      (room : x.sink.used + r.outChunk ≤ x.sink.size) :
      Prepared lift Held r o₀ Refused y (.ok, x) (.ok out)
  | overflow {x : Drive H η} (tracks : Tracks lift Held r o₀ x y) :
      Prepared lift Held r o₀ Refused y (.errMemory, x) (.error .errMemory)
  | refused {x : Drive H η} {e : Except Status OutBuf} (tracks : Tracks lift Held r o₀ x y)
      (refuses : Refused) : Prepared lift Held r o₀ Refused y (.errMemory, x) e

theorem Tracks.prepare (h : Tracks lift Held r o₀ x y) :
    Prepared lift Held r o₀ (x.sink.Refused H x.heap r.outChunk) (y.refill r) (x.prepare r)
      (reserve (y.refill r).out r.outChunk) := by
  obtain ⟨log, hbooks⟩ := h.books
  have hheap : (x.refill r).heap = x.heap := by
    unfold Drive.refill
    split_ifs <;> rfl
  have hsink : (x.refill r).sink = x.sink := by
    unfold Drive.refill
    split_ifs <;> rfl
  have hprepared := hbooks.prepare
  have hrefilled := h.refill
  have hrefill := hbooks.refill
  unfold Drive.prepare at hprepared ⊢
  dsimp only at hprepared ⊢
  rw [← hheap, ← hsink]
  generalize x.refill r = x' at hprepared hrefilled hrefill ⊢
  generalize y.refill r = y' at hrefilled ⊢
  have hreserved := Sink.reserve_as (H := H) (h := x'.heap) r.outChunk hrefill.accounts.fits
    hrefill.owner hrefilled.holds
  generalize x'.sink.reserve H x'.heap r.outChunk = c at hprepared hreserved ⊢
  generalize reserve y'.out r.outChunk = c' at hreserved ⊢
  cases hreserved with
  | room heap holds =>
    rcases hprepared with ⟨-, hroomed, hroom, -⟩ | ⟨hfail, -⟩
    · exact .room ⟨⟨log, hroomed⟩, hrefilled.held, hrefilled.handle, hrefilled.slice,
        hrefilled.later, hrefilled.calls, holds⟩ hroom
    · cases hfail
  | overflow heap =>
    rcases hprepared with ⟨hok, -⟩ | ⟨-, hkept, -⟩
    · cases hok
    · exact .overflow ⟨⟨log, hkept⟩, hrefilled.held, hrefilled.handle, hrefilled.slice,
        hrefilled.later, hrefilled.calls, hrefilled.holds⟩
  | refused heap refuses =>
    rcases hprepared with ⟨hok, -⟩ | ⟨-, hkept, -⟩
    · cases hok
    · exact .refused ⟨⟨log, hkept⟩, hrefilled.held, hrefilled.handle, hrefilled.slice,
        hrefilled.later, hrefilled.calls, hrefilled.holds⟩ refuses

theorem Tracks.alike (h : Tracks lift Held r o₀ x y) :
    (x.buf.rebase x.sink.used r.outChunk).Alike (.ofParts y.slice r.outChunk) where
  unread := by
    rw [Buffer.unread_ofParts, ← h.slice]
    rfl
  room := rfl
  dstPos := rfl
  stored := rfl
  exact := h.books.choose_spec.exact
  exact' := by simp [Buffer.ofParts, Buffer.unread]

/-- After the two calls the runs are side by side again. -/
theorem Tracks.call (hs : Server process Held) (h : Tracks lift Held r o₀ x y)
    (hroom : x.sink.used + r.outChunk ≤ x.sink.size) {c' : Status × η' × Buffer}
    (hc : SameCall lift (x.buf.rebase x.sink.used r.outChunk) (.ofParts y.slice r.outChunk)
      (x.call process r) c') :
    Tracks lift Held r o₀ (x.after (x.call process r))
      { y with
        handle := c'.2.1, slice := c'.2.2.unread, calls := y.calls + 1,
        out := { y.out with used := y.out.used ++ c'.2.2.stored } } := by
  obtain ⟨log, hbooks⟩ := h.books
  have hserves := hs.serves _ (x.mode r) h.held hbooks.checkBuffer
  have hafter := hbooks.call hroom hserves
  refine ⟨⟨_, hafter⟩, hs.held _ (x.mode r) h.held, hc.state, hc.buf.unread, h.later,
    congrArg (· + 1) h.calls, ?_, h.holds.size, h.holds.consumed⟩
  have hstored := hc.buf.stored
  have hcontents := hafter.accounts.contents
  unfold Log.made at hcontents
  rw [List.flatMap_append, List.flatMap_singleton, ← List.append_assoc] at hcontents
  have hbefore := hbooks.accounts.contents
  unfold Log.made at hbefore
  rw [← hbefore, h.holds.contents] at hcontents
  rw [← hstored]
  exact hcontents

theorem Tracks.judge (h : Tracks lift Held r o₀ x y) {c : Status × η × Buffer}
    {c' : Status × η' × Buffer} (hstatus : c.1 = c'.1) (hpos : c.2.2.dstPos = c'.2.2.dstPos)
    (hafter : Tracks lift Held r o₀ (x.after c)
      { y with
        handle := c'.2.1, slice := c'.2.2.unread, calls := y.calls + 1,
        out := { y.out with used := y.out.used ++ c'.2.2.stored } }) {x₀ : Drive H η}
    {y₀ : Whole η'} :
    Beside (Tracks lift Held r o₀) EndsAs (BreaksOff r) x₀ y₀ (x.judge r c) (y.judge r y.out c') := by
  unfold Drive.judge Whole.judge
  dsimp only
  rw [hstatus, hpos, if_congr (and_congr_right' (and_congr_left' h.last)) rfl rfl]
  by_cases hend : c'.1 = .streamEnd
  · rw [if_pos hend, if_pos hend]
    exact .ended (hafter.leaves .streamEnd)
  rw [if_neg hend, if_neg hend]
  by_cases herr : c'.1 ≠ .ok ∧ c'.1 ≠ .needInput ∧ c'.1 ≠ .needOutput
  · rw [if_pos herr, if_pos herr]
    exact .ended (hafter.leaves c'.1)
  rw [if_neg herr, if_neg herr]
  by_cases hstall : c'.2.2.dstPos = 0 ∧ y.later = [] ∧ c'.1 = .needInput
  · rw [if_pos hstall, if_pos hstall]
    exact .ended (hafter.leaves .errInternal)
  · rw [if_neg hstall, if_neg hstall]
    exact .on hafter

/-- A turn over memory beside a turn over bytes. -/
theorem Tracks.turn (hs : Server process Held) (hu : Uniform lift process process')
    (h : Tracks lift Held r o₀ x y) :
    Beside (Tracks lift Held r o₀) EndsAs (BreaksOff r) x y (x.turn process r)
      (wholeTurn process' r y) := by
  have hout := Whole.refill_out r y
  have hprepared := h.prepare
  unfold Drive.turn wholeTurn
  dsimp only
  generalize y.refill r = y' at hout hprepared ⊢
  generalize x.prepare r = p at hprepared ⊢
  generalize reserve y'.out r.outChunk = q at hprepared ⊢
  cases hprepared with
  | @room x' out tracks room =>
    dsimp only
    rw [if_neg (by simp)]
    obtain ⟨log, hbooks⟩ := tracks.books
    have hcall := hu y'.handle (x'.mode r) tracks.alike hbooks.checkBuffer
      (checkBuffer_ofParts _ _)
    rw [← tracks.handle] at hcall
    have hafter := tracks.call hs room hcall
    have hmode : y'.mode r = x'.mode r := tracks.mode.symm
    rw [hmode]
    exact tracks.judge hcall.status hcall.buf.dstPos hafter
  | @overflow x' tracks =>
    dsimp only
    rw [if_pos (by simp)]
    exact .ended (tracks.leaves .errMemory)
  | @refused x' _ tracks refuses =>
    dsimp only
    rw [if_pos (by simp)]
    exact .broken ⟨rfl, refuses, tracks.holds.contents.trans (congrArg OutBuf.used hout)⟩

/-- The loop comes to a turn for which the allocator refuses the block it asks for. -/
def ComesToRefusal (process : η → Buffer → Flush → Status × η × Buffer) (r : RunOpts)
    (x : Drive H η) : Prop :=
  ∃ x', Reaches (Drive.turn process r) x x' ∧ x'.sink.Refused H x'.heap r.outChunk

/-- The loop over memory refines the loop over bytes. -/
theorem Tracks.refines (hs : Server process Held) (hu : Uniform lift process process')
    (h : Tracks lift Held r o₀ x y) :
    Refines (x.ComesToRefusal process r) (Returns (Drive.turn process r) x)
      (Returns (wholeTurn process' r) y) where
  ends e he := by
    rcases he.beside (fun _ _ hxy => Tracks.turn hs hu hxy) h with
      hends | ⟨x', y', hreach', hreach, hbreak⟩
    · exact .inl hends
    · have hwritten (z : Whole η') (hz : e.2.contents <+: z.out.used) :
          Turn (fun w => e.2.contents <+: w.out.used) (fun e' => e.2.contents <+: e'.2.used)
            (wholeTurn process' r z) :=
        (wholeTurn_written process' r z).mono (fun _ hw => hz.trans hw) fun _ hw => hz.trans hw
      refine .inr ⟨hbreak.status, ⟨x', hreach', hbreak.refuses⟩, fun e' he' => ?_⟩
      exact (he'.from_reaches hreach).keeps _ hwritten (hbreak.contents ▸ List.prefix_rfl)
  returns _ he' := he'.beside_returns (fun _ _ hxy => Tracks.turn hs hu hxy) h

end Drive

/-! ## Handles of either direction -/

theorem handleProcess_encoder (hv : v.Uniform) :
    Uniform (fun e : Encoder v => (.inl ⟨v, e⟩ : Handle)) handleProcess encoderProcess := by
  intro e b b' mode h hb hb'
  have hcall := encoderProcess_uniform hv.encoder e mode h hb hb'
  exact ⟨hcall.status, congrArg (fun e : Encoder v => (.inl ⟨v, e⟩ : Handle)) hcall.state,
    hcall.buf, hcall.read⟩

theorem handleProcess_decoder (hv : v.Uniform) :
    Uniform (fun d : Decoder v => (.inr ⟨v, d⟩ : Handle)) handleProcess decoderProcess := by
  intro d b b' mode h hb hb'
  have hcall := decoderProcess_uniform hv.decoder d mode h hb hb'
  exact ⟨hcall.status, congrArg (fun d : Decoder v => (.inr ⟨v, d⟩ : Handle)) hcall.state,
    hcall.buf, hcall.read⟩

section Runs

variable {H : Heap} {lookup : CodecId → Option CodecVtable} {r : RunOpts} {heap : H.State}
  {o₀ : Sink} {out₀ : OutBuf}

theorem runsInto_error {st : Status} (hchunks : ¬ (r.inChunk = 0 ∨ r.outChunk = 0))
    (hnew : handleNew lookup r = .error st) :
    RunsInto H lookup r heap o₀ = fun e => e = (st, o₀) := by
  funext e
  rw [RunsInto, if_neg hchunks, hnew]

theorem runsInto_handle {handle : Handle} (hchunks : ¬ (r.inChunk = 0 ∨ r.outChunk = 0))
    (hnew : handleNew lookup r = .ok handle) :
    RunsInto H lookup r heap o₀ =
      Returns (Drive.turn handleProcess r) (.start handle heap o₀) := by
  funext e
  rw [RunsInto, if_neg hchunks, hnew]

theorem runsWhole_error {st : Status} (hchunks : ¬ (r.inChunk = 0 ∨ r.outChunk = 0))
    (hnew : handleNew lookup r = .error st) :
    RunsWhole lookup r out₀ = fun e => e = (st, out₀) := by
  funext e
  unfold handleNew at hnew
  rw [RunsWhole, if_neg hchunks]
  by_cases henc : r.encode = true
  · rw [if_pos henc] at hnew ⊢
    rcases he : encoderNew lookup r.encoderOpts with st' | x <;> rw [he] at hnew <;> cases hnew
    rfl
  · rw [if_neg henc] at hnew ⊢
    rcases hd : decoderNew lookup r.decoderOpts with st' | x <;> rw [hd] at hnew <;> cases hnew
    rfl

theorem runsWhole_encoder {e : Encoder v} (hchunks : ¬ (r.inChunk = 0 ∨ r.outChunk = 0))
    (hnew : handleNew lookup r = .ok (.inl ⟨v, e⟩)) :
    RunsWhole lookup r out₀ = Returns (wholeTurn encoderProcess r) (.start e r out₀) := by
  funext x
  unfold handleNew at hnew
  rw [RunsWhole, if_neg hchunks]
  by_cases henc : r.encode = true
  · rw [if_pos henc] at hnew ⊢
    rcases he : encoderNew lookup r.encoderOpts with st' | x <;> rw [he] at hnew <;> cases hnew
    rfl
  · rw [if_neg henc] at hnew
    rcases hd : decoderNew lookup r.decoderOpts with st' | x <;> rw [hd] at hnew <;> cases hnew

theorem runsWhole_decoder {d : Decoder v} (hchunks : ¬ (r.inChunk = 0 ∨ r.outChunk = 0))
    (hnew : handleNew lookup r = .ok (.inr ⟨v, d⟩)) :
    RunsWhole lookup r out₀ = Returns (wholeTurn decoderProcess r) (.start d r out₀) := by
  funext x
  unfold handleNew at hnew
  rw [RunsWhole, if_neg hchunks]
  by_cases henc : r.encode = true
  · rw [if_pos henc] at hnew
    rcases he : encoderNew lookup r.encoderOpts with st' | x <;> rw [he] at hnew <;> cases hnew
  · rw [if_neg henc] at hnew ⊢
    rcases hd : decoderNew lookup r.decoderOpts with st' | x <;> rw [hd] at hnew <;> cases hnew
    rfl

/-- A run over bytes has one result. -/
theorem RunsWhole.unique {e e' : Status × OutBuf} (h : RunsWhole lookup r out₀ e)
    (h' : RunsWhole lookup r out₀ e') : e = e' := by
  by_cases hchunks : r.inChunk = 0 ∨ r.outChunk = 0
  · rw [RunsWhole, if_pos hchunks] at h h'
    exact h.trans h'.symm
  rcases hnew : handleNew lookup r with st | ⟨v, e⟩ | ⟨v, d⟩
  · rw [runsWhole_error hchunks hnew] at h h'
    exact h.trans h'.symm
  · rw [runsWhole_encoder hchunks hnew] at h h'
    exact h.unique h'
  · rw [runsWhole_decoder hchunks hnew] at h h'
    exact h.unique h'

theorem Drive.Tracks.start {η : Type*} {η' : Type} {lift : η' → η} {Held : η → Prop} (r : RunOpts)
    (heap : H.State) (hf : o₀.Fits) (hown : o₀.owner = true) (hh : o₀.Holds out₀) {handle : η'}
    (hheld : Held (lift handle)) :
    Tracks lift Held r o₀ (.start (lift handle) heap o₀) (.start handle r out₀) :=
  ⟨⟨[], books_start (lift handle) heap hf hown⟩, hheld, rfl, rfl, rfl, rfl, hh⟩

/-- The run of `zu_int_run_whole` comes to a turn for which the allocator refuses the
block it asks for. -/
def RunRefused (H : Heap) (lookup : CodecId → Option CodecVtable) (r : RunOpts) (heap : H.State)
    (o₀ : Sink) : Prop :=
  ∃ handle, handleNew lookup r = .ok handle ∧
    (Drive.start handle heap o₀).ComesToRefusal handleProcess r

/-- A run into a block of memory refines a run into a list of bytes, over codecs that look at
nothing but their windows and keep to them. -/
theorem RunsInto.refines (hlookup : ∀ v, lookup r.codec = some v → v.Serves ∧ v.Uniform)
    (hf : o₀.Fits) (hown : o₀.owner = true) (hh : o₀.Holds out₀) :
    Refines (RunRefused H lookup r heap o₀) (RunsInto H lookup r heap o₀)
      (RunsWhole lookup r out₀) := by
  by_cases hchunks : r.inChunk = 0 ∨ r.outChunk = 0
  · have hinto : RunsInto H lookup r heap o₀ = fun e => e = (.errInvalidArgument, o₀) := by
      funext e
      rw [RunsInto, if_pos hchunks]
    have hwhole : RunsWhole lookup r out₀ = fun e => e = (.errInvalidArgument, out₀) := by
      funext e
      rw [RunsWhole, if_pos hchunks]
    rw [hinto, hwhole]
    exact .single ⟨rfl, hh⟩
  rcases hnew : handleNew lookup r with st | ⟨v, e⟩ | ⟨v, d⟩
  · rw [runsInto_error hchunks hnew, runsWhole_error hchunks hnew]
    exact .single ⟨rfl, hh⟩
  · obtain ⟨hserves, huniform⟩ := hlookup v (handleNew_found hnew)
    rw [runsInto_handle hchunks hnew, runsWhole_encoder hchunks hnew]
    exact ((Drive.Tracks.start r heap hf hown hh hserves).refines handleProcess_server
      (handleProcess_encoder huniform)).mono fun hrefused => ⟨_, hnew, hrefused⟩
  · obtain ⟨hserves, huniform⟩ := hlookup v (handleNew_found hnew)
    rw [runsInto_handle hchunks hnew, runsWhole_decoder hchunks hnew]
    exact ((Drive.Tracks.start r heap hf hown hh hserves).refines handleProcess_server
      (handleProcess_decoder huniform)).mono fun hrefused => ⟨_, hnew, hrefused⟩

end Runs

end Zukomp
