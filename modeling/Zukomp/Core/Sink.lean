import Zukomp.Core.Whole

/-! # The sink of the drive loop, zu_whole.c

`zu_int_run_whole` with its cursors and its block of memory as the source has them: the input
window is rebased on every slice, and the output window on every call, under a block that
`realloc` may have moved or may refuse to grow.
-/

namespace Zukomp

open Library

/-! ## Memory -/

/-- An allocator. `realloc` answers the new block or NULL. -/
structure Heap where
  State : Type
  realloc : State → List UInt8 → ℕ → Option (List UInt8) × State
  resized : ∀ {h block n bigger}, (realloc h block n).1 = some bigger →
    bigger.length = n ∧ bigger.take block.length = block.take n

/-- `zu_int_outbuf`. Addresses in the block are offsets. -/
structure Sink where
  owner : Bool
  block : List UInt8
  size : ℕ
  used : ℕ
  consumed : ℕ

namespace Sink

/-- `zu_int_outbuf_owner` -/
def fresh : Sink := ⟨true, [], 0, 0, 0⟩

/-- What has been written so far. -/
def contents (o : Sink) : List UInt8 := o.block.take o.used

/-- `size` is that of the block, and what is used lies within. -/
structure Fits (o : Sink) : Prop where
  block : o.block.length = o.size
  used_le : o.used ≤ o.size
  size_lt : o.size < wordSize

theorem fresh_fits : fresh.Fits := ⟨rfl, le_rfl, by simp [fresh]⟩

def reserve (H : Heap) (h : H.State) (o : Sink) (extra : ℕ) : Status × Sink × H.State :=
  if o.owner = false then (.errInvalidArgument, o, h)
  else match sizeAdd o.used extra with
    | .error st => (st, o, h)
    | .ok needed =>
      if needed ≤ o.size then (.ok, o, h)
      else match grow o.size (needed - o.size) with
        | .error st => (st, o, h)
        | .ok next => match H.realloc h o.block next with
          | (none, h) => (.errMemory, o, h)
          | (some bigger, h) => (.ok, { o with block := bigger, size := next }, h)

/-- The bytes a codec has stored through `dst`. -/
def store (o : Sink) (buf : Buffer) : Sink :=
  let start := buf.dst.getD 0
  { o with
    block := o.block.take start ++ buf.stored ++ o.block.drop (start + buf.stored.length)
    used := o.used + buf.dstPos }

end Sink

/-! ## The loop -/

namespace Buffer

def zeroed : Buffer := ⟨none, 0, 0, none, 0, 0, [], nofun⟩

def offer (b : Buffer) (bytes : List UInt8) : Buffer :=
  { b with
    src := some bytes, srcSize := bytes.length, srcPos := 0
    readable := length_of_some bytes }

/-- Point `dst` at a new output window. -/
def rebase (b : Buffer) (start size : ℕ) : Buffer :=
  { b with dst := some start, dstSize := size, dstPos := 0, stored := [] }

end Buffer

/-- The locals of `zu_int_run_whole` and the sink. -/
structure Drive (H : Heap) (η : Type*) where
  handle : η
  heap : H.State
  buf : Buffer
  fed : ℕ
  calls : UInt64
  sink : Sink

namespace Drive

variable {H : Heap} {η : Type*}

def start (handle : η) (heap : H.State) (sink : Sink) : Drive H η :=
  ⟨handle, heap, .zeroed, 0, 0, sink⟩

/-- Hand over the next input slice once the previous one is spent. -/
def refill (r : RunOpts) (x : Drive H η) : Drive H η :=
  if x.buf.srcPos = x.buf.srcSize ∧ x.fed < r.src.length then
    let take := min (r.src.length - x.fed) r.inChunk
    { x with buf := x.buf.offer ((r.src.drop x.fed).take take), fed := x.fed + take }
  else x

def last (r : RunOpts) (x : Drive H η) : Bool := r.src.length ≤ x.fed

def mode (r : RunOpts) (x : Drive H η) : Flush :=
  if x.last r then .finish
  else if 0 < r.flushEvery ∧ (x.calls + 1) % r.flushEvery = 0 then .flush
  else .run

/-- What the codec actually took, as opposed to what was offered. -/
def consumed (x : Drive H η) : ℕ := x.fed - (x.buf.srcSize - x.buf.srcPos)

def leave (x : Drive H η) (st : Status) : Status × Sink :=
  (st, { x.sink with consumed := x.consumed })

def after (x : Drive H η) (c : Status × η × Buffer) : Drive H η :=
  { x with handle := c.2.1, buf := c.2.2, calls := x.calls + 1, sink := x.sink.store c.2.2 }

/-- What the loop makes of a call's result. -/
def judge (r : RunOpts) (x : Drive H η) (c : Status × η × Buffer) :
    Drive H η ⊕ Status × Sink :=
  let x' := x.after c
  if c.1 = .streamEnd then .inr (x'.leave .streamEnd)
  else if c.1 ≠ .ok ∧ c.1 ≠ .needInput ∧ c.1 ≠ .needOutput then .inr (x'.leave c.1)
  else if c.2.2.dstPos = 0 ∧ x.last r ∧ c.1 = .needInput then .inr (x'.leave .errInternal)
  else .inl x'

variable (process : η → Buffer → Flush → Status × η × Buffer) (r : RunOpts)

def call (x : Drive H η) : Status × η × Buffer :=
  process x.handle (x.buf.rebase x.sink.used r.outChunk) (x.mode r)

/-- The start of a turn: new input where the last is spent, and room in the sink. -/
def prepare (x : Drive H η) : Status × Drive H η :=
  let x := x.refill r
  match x.sink.reserve H x.heap r.outChunk with
  | (st, sink, heap) => (st, { x with sink := sink, heap := heap })

def turn (x : Drive H η) : Drive H η ⊕ Status × Sink :=
  match x.prepare r with
  | (st, x) => if st ≠ .ok then .inr (x.leave st) else x.judge r (x.call process r)

end Drive

/-- The handle of either direction. -/
abbrev Handle := (Σ v, Encoder v) ⊕ (Σ v, Decoder v)

def handleNew (lookup : CodecId → Option CodecVtable) (r : RunOpts) : Except Status Handle :=
  if r.encode then (encoderNew lookup r.encoderOpts).map .inl
  else (decoderNew lookup r.decoderOpts).map .inr

def handleProcess : Handle → Buffer → Flush → Status × Handle × Buffer
  | .inl ⟨v, e⟩, buf, mode => match encoderProcess e buf mode with
    | (st, e, buf) => (st, .inl ⟨v, e⟩, buf)
  | .inr ⟨v, d⟩, buf, mode => match decoderProcess d buf mode with
    | (st, d, buf) => (st, .inr ⟨v, d⟩, buf)

/-- `zu_int_run_whole`: what it returns, if it does, and leaves in the sink. -/
def RunsInto (H : Heap) (lookup : CodecId → Option CodecVtable) (r : RunOpts) (heap : H.State)
    (sink : Sink) (result : Status × Sink) : Prop :=
  if r.inChunk = 0 ∨ r.outChunk = 0 then result = (.errInvalidArgument, sink)
  else match handleNew lookup r with
    | .error st => result = (st, sink)
    | .ok handle => Returns (Drive.turn handleProcess r) (.start handle heap sink) result

/-! ## Checked sizes -/

theorem sizeAdd_cases (a b : ℕ) :
    sizeAdd a b = .ok (a + b) ∧ (a < wordSize → a + b < wordSize) ∨
      sizeAdd a b = .error .errMemory ∧ wordSize ≤ a + b := by
  unfold sizeAdd
  split_ifs with h
  · exact .inr ⟨rfl, by omega⟩
  · exact .inl ⟨rfl, by omega⟩

theorem sizeMul_cases (a b : ℕ) :
    sizeMul a b = .ok (a * b) ∧ a * b < wordSize ∨
      sizeMul a b = .error .errMemory ∧ wordSize ≤ a * b := by
  unfold sizeMul
  split_ifs with h
  · have hdiv := (Nat.div_lt_iff_lt_mul (Nat.pos_of_ne_zero h.1)).mp h.2
    exact .inr ⟨rfl, by rw [Nat.mul_comm]; omega⟩
  · refine .inl ⟨rfl, ?_⟩
    by_cases ha : a = 0
    · simp [ha]
    · have hle : b ≤ (wordSize - 1) / a := not_lt.mp fun hb => h ⟨ha, hb⟩
      have hmul := (Nat.le_div_iff_mul_le (Nat.pos_of_ne_zero ha)).mp hle
      rw [Nat.mul_comm]
      have : 0 < wordSize := by simp
      omega

/-- A grown size holds what is needed and does not wrap, or there is no such size. -/
theorem grow_cases {current : ℕ} (needed : ℕ) (hc : current < wordSize) :
    (∃ next, grow current needed = .ok next ∧ current + needed ≤ next ∧ next < wordSize) ∨
      grow current needed = .error .errMemory ∧ wordSize ≤ current + needed := by
  unfold grow
  rcases sizeAdd_cases current needed with ⟨hadd, hlt⟩ | ⟨hadd, hle⟩
  · rw [hadd]
    dsimp only
    have hmin : minBuffer < wordSize := by decide
    rcases sizeMul_cases current 2 with ⟨hmul, hlt'⟩ | ⟨hmul, -⟩
    · rw [hmul]
      exact .inl ⟨_, rfl, by simp, by simp [hmin, hlt hc, hlt']⟩
    · rw [hmul]
      exact .inl ⟨_, rfl, by simp, by simp [hmin, hlt hc]⟩
  · rw [hadd]
    exact .inr ⟨rfl, hle⟩

/-! ## Codecs that keep to their windows -/

namespace Buffer

/-- A callee that advances the cursors within the two windows, and `dst_pos` by what it stores. -/
structure Serves (b b' : Buffer) : Prop extends Advances b b' where
  stores : ∃ o, b'.stored = b.stored ++ o ∧ b'.dstPos = b.dstPos + o.length

theorem Serves.refl {b : Buffer} (h : checkBuffer b = .ok) : b.Serves b :=
  ⟨⟨.refl b, le_rfl, (checkBuffer_ok h).1, le_rfl, (checkBuffer_ok h).2⟩, [], by simp, by simp⟩

end Buffer

/-- A process entry that serves every buffer that passes the driver's check. -/
def Serves {η : Type*} (process : η → Buffer → Flush → Status × η × Buffer) : Prop :=
  ∀ h buf mode, checkBuffer buf = .ok → buf.Serves (process h buf mode).2.2

/-- A codec whose two process entries keep to the windows they are shown. -/
structure CodecVtable.Serves (v : CodecVtable) : Prop where
  encoder : Zukomp.Serves v.encoderProcess
  decoder : Zukomp.Serves v.decoderProcess

theorem onBuffer_serves {σ : Type} {process : σ → Window → Flush → Status × σ × Window}
    (h : ∀ s w mode, Window.Advances w (process s w mode).2.2) : Serves (onBuffer process) := by
  intro s buf mode hb
  obtain ⟨hsrc, hdst⟩ := checkBuffer_ok hb
  have hadv := h s buf.window mode
  refine ⟨Buffer.advances_advance hadv hsrc hdst, ?_⟩
  obtain ⟨u, o, hm⟩ := hadv
  refine ⟨o, (Buffer.advance_moved hm).2.1, ?_⟩
  change buf.dstPos + (process s buf.window mode).2.2.written.length = _
  rw [hm.eq]
  rfl

theorem encoderProcess_serves {v : CodecVtable} (hv : Serves v.encoderProcess) :
    Serves (encoderProcess (v := v)) := by
  intro e buf mode hb
  unfold encoderProcess
  rw [if_neg (by simp [hb])]
  by_cases hfin : e.finished = true
  · rw [if_pos hfin]
    exact .refl hb
  by_cases hflush : mode = .flush ∧ ¬ v.can canFlush
  · rw [if_neg hfin, if_pos hflush]
    exact .refl hb
  · rw [if_neg hfin, if_neg hflush]
    exact hv e.state buf mode hb

theorem Decoder.checkBuffer_shown {v : CodecVtable} (d : Decoder v) {buf : Buffer}
    (hb : checkBuffer buf = .ok) : checkBuffer (d.shown buf) = .ok := by
  obtain ⟨hsrc, hdst⟩ := checkBuffer_ok hb
  have hsize := d.shown_dstSize buf hdst
  have hle := d.shown_dstSize_le buf hdst
  unfold checkBuffer at hb ⊢
  simp only [shown_src, shown_srcSize, shown_srcPos, shown_dst, shown_dstPos]
  rw [if_neg (by omega)] at hb ⊢
  by_cases hnull : buf.src.isNone ∧ buf.srcSize ≠ 0
  · rw [if_pos hnull] at hb
    cases hb
  rw [if_neg hnull] at hb ⊢
  by_cases hnone : buf.dst.isNone ∧ buf.dstSize ≠ 0
  · rw [if_pos hnone] at hb
    cases hb
  · refine if_neg fun h => hnone ⟨h.1, ?_⟩
    have := h.2
    omega

theorem decoderProcess_serves {v : CodecVtable} (hv : Serves v.decoderProcess) :
    Serves (decoderProcess (v := v)) := by
  intro d buf mode hb
  change buf.Serves (decoderCall d buf mode).buf
  rcases decoderCall_cases d buf mode with ⟨-, hsame, -⟩ | ⟨-, -, -, hcall⟩
  · rw [hsame]
    exact .refl hb
  · have hserves := hv d.state (d.shown buf) mode (d.checkBuffer_shown hb)
    have hsettled := d.settled buf hb hserves.toAdvances
    rw [hcall]
    refine ⟨⟨hsettled.fields, hsettled.src_le, hsettled.src_le_size, hsettled.dst_le, ?_⟩, ?_⟩
    · have hle := hsettled.produced_le
      have hallow := d.shown_dstSize_le buf (checkBuffer_ok hb).2
      rw [d.shown_dstSize buf (checkBuffer_ok hb).2] at hallow
      have := hsettled.dst_le
      omega
    · obtain ⟨o, hstored, hpos⟩ := hserves.stores
      rw [d.shown_stored] at hstored
      rw [d.shown_dstPos] at hpos
      refine ⟨o, ?_, ?_⟩
      · unfold Decoder.settle
        dsimp only
        split_ifs <;> exact hstored
      · unfold Decoder.settle
        dsimp only
        split_ifs <;> exact hpos

/-- The vtable behind a handle. -/
def Handle.codec : Handle → CodecVtable
  | .inl e => e.1
  | .inr d => d.1

/-- Handles of one kind, whose calls serve their buffers. -/
structure Server {η : Type*} (process : η → Buffer → Flush → Status × η × Buffer)
    (Held : η → Prop) : Prop where
  serves : ∀ {h} buf mode, Held h → checkBuffer buf = .ok → buf.Serves (process h buf mode).2.2
  held : ∀ {h} buf mode, Held h → Held (process h buf mode).2.1

theorem handleProcess_server : Server handleProcess fun h => h.codec.Serves where
  serves := by
    rintro (⟨v, e⟩ | ⟨v, d⟩) buf mode hv hb
    · exact encoderProcess_serves hv.encoder e buf mode hb
    · exact decoderProcess_serves hv.decoder d buf mode hb
  held := by
    rintro (⟨v, e⟩ | ⟨v, d⟩) buf mode hv
    · exact hv
    · exact hv

/-- A handle is made over the vtable that answers for its codec. -/
theorem encoderNew_found {lookup : CodecId → Option CodecVtable} {opts : EncoderOpts}
    {x : Σ v, Encoder v} (h : encoderNew lookup opts = .ok x) : lookup opts.codec = some x.1 := by
  unfold encoderNew at h
  split at h
  · cases h
  · split at h
    · cases h
    · next hfound =>
      split_ifs at h
      split at h
      · cases h
      · cases h
        exact resolve_found hfound

theorem decoderNew_found {lookup : CodecId → Option CodecVtable} {opts : DecoderOpts}
    {x : Σ v, Decoder v} (h : decoderNew lookup opts = .ok x) : lookup opts.codec = some x.1 := by
  unfold decoderNew at h
  split at h
  · cases h
  · split at h
    · cases h
    · next hfound =>
      split at h
      · cases h
      · cases h
        exact resolve_found hfound

theorem handleNew_found {lookup : CodecId → Option CodecVtable} {r : RunOpts} {h : Handle}
    (hnew : handleNew lookup r = .ok h) : lookup r.codec = some h.codec := by
  unfold handleNew at hnew
  by_cases henc : r.encode = true
  · rw [if_pos henc] at hnew
    rcases he : encoderNew lookup r.encoderOpts with st | e <;> rw [he] at hnew <;> cases hnew
    exact encoderNew_found he
  · rw [if_neg henc] at hnew
    rcases hd : decoderNew lookup r.decoderOpts with st | d <;> rw [hd] at hnew <;> cases hnew
    exact decoderNew_found hd

/-! ## Accounting -/

namespace Sink

variable {H : Heap} {h : H.State} {o : Sink} {extra : ℕ}

/-- A reservation makes room in the block for `extra` more bytes, or leaves the sink alone. -/
inductive Reserved (o : Sink) (extra : ℕ) : Status × Sink × H.State → Prop
  | room {o' : Sink} (fits : o'.Fits) (owner : o'.owner = o.owner) (used : o'.used = o.used)
      (contents : o'.contents = o.contents) (window : o.used + extra ≤ o'.size) (h : H.State) :
      Reserved o extra (.ok, o', h)
  | refused (h : H.State) : Reserved o extra (.errMemory, o, h)

theorem reserve_reserved (extra : ℕ) (hf : o.Fits) (hown : o.owner = true) :
    Reserved o extra (o.reserve H h extra) := by
  have hused := hf.used_le
  have hsize := hf.size_lt
  unfold reserve
  rw [if_neg (by simp [hown])]
  rcases sizeAdd_cases o.used extra with ⟨hadd, -⟩ | ⟨hadd, -⟩
  swap
  · rw [hadd]
    exact .refused h
  rw [hadd]
  dsimp only
  by_cases hroom : o.used + extra ≤ o.size
  · rw [if_pos hroom]
    exact .room hf rfl rfl rfl hroom h
  rw [if_neg hroom]
  rcases grow_cases (o.used + extra - o.size) hsize with ⟨next, hgrow, hle, hlt⟩ | ⟨hgrow, -⟩
  swap
  · rw [hgrow]
    exact .refused h
  rw [hgrow]
  dsimp only
  rcases hre : H.realloc h o.block next with ⟨_ | bigger, h'⟩
  · exact .refused h'
  obtain ⟨hlen, hkept⟩ := H.resized (congrArg Prod.fst hre)
  have hfits : Sink.Fits { o with block := bigger, size := next } :=
    ⟨hlen, show o.used ≤ next by omega, hlt⟩
  refine .room hfits (show o.owner = o.owner from rfl) (show o.used = o.used from rfl) ?_ ?_ h'
  swap
  · change o.used + extra ≤ next
    omega
  have hfull : bigger.take o.block.length = o.block := by
    rw [hkept, List.take_of_length_le (by rw [hf.block]; omega)]
  calc bigger.take o.used
      = (bigger.take o.block.length).take o.used := by
        rw [List.take_take, hf.block, min_eq_left hused]
    _ = o.block.take o.used := by rw [hfull]

theorem store_contents (hf : o.Fits) {buf : Buffer} (hdst : buf.dst = some o.used)
    (hpos : buf.dstPos = buf.stored.length) (hroom : o.used + buf.stored.length ≤ o.size) :
    (o.store buf).Fits ∧ (o.store buf).contents = o.contents ++ buf.stored := by
  have hused : o.used ≤ o.block.length := by rw [hf.block]; exact hf.used_le
  have hblock : (o.store buf).block =
      o.block.take o.used ++ buf.stored ++ o.block.drop (o.used + buf.stored.length) := by
    simp only [store, hdst, Option.getD_some]
  refine ⟨⟨?_, ?_, hf.size_lt⟩, ?_⟩
  · rw [hblock]
    simp only [List.length_append, List.length_take, List.length_drop, hf.block]
    change _ = o.size
    omega
  · change o.used + buf.dstPos ≤ o.size
    rw [hpos]
    exact hroom
  · change ((o.store buf).block).take (o.used + buf.dstPos) = _
    rw [hblock, hpos, List.take_left' (by simp [hused])]
    rfl

end Sink

/-- What a call takes of the source and makes of it. -/
structure Exchange where
  taken : List UInt8
  made : List UInt8

abbrev Log := List Exchange

def Log.taken (log : Log) : List UInt8 := log.flatMap Exchange.taken
def Log.made (log : Log) : List UInt8 := log.flatMap Exchange.made

/-- The sink and the reported count after the calls of a log, from the sink `o₀` on. -/
structure Accounts (src : List UInt8) (o₀ : Sink) (log : Log) (o : Sink) (consumed : ℕ) :
    Prop where
  fits : o.Fits
  contents : o.contents = o₀.contents ++ log.made
  used : o.used = o₀.used + log.made.length
  taken : log.taken = src.take consumed
  consumed_eq : consumed = log.taken.length
  consumed_le : consumed ≤ src.length

variable {src : List UInt8} {o₀ o : Sink} {log : Log} {consumed : ℕ}

theorem Accounts.leave (h : Accounts src o₀ log o consumed) :
    Accounts src o₀ log { o with consumed := consumed } consumed where
  fits := ⟨h.fits.block, h.fits.used_le, h.fits.size_lt⟩
  contents := h.contents
  used := h.used
  taken := h.taken
  consumed_eq := h.consumed_eq
  consumed_le := h.consumed_le

theorem Accounts.idle (h : Accounts src o₀ log o consumed) :
    Accounts src o₀ (log ++ [⟨[], []⟩]) o consumed := by
  have htaken : (log ++ [⟨[], []⟩] : Log).taken = log.taken := by simp [Log.taken]
  have hmade : (log ++ [⟨[], []⟩] : Log).made = log.made := by simp [Log.made]
  exact ⟨h.fits, hmade ▸ h.contents, hmade ▸ h.used, htaken ▸ h.taken, htaken ▸ h.consumed_eq,
    h.consumed_le⟩

namespace Drive

variable {H : Heap} {η : Type*} (process : η → Buffer → Flush → Status × η × Buffer) (r : RunOpts)

def exchange (x : Drive H η) : Exchange :=
  match x.prepare r with
  | (.ok, x) =>
    let buf := x.buf.rebase x.sink.used r.outChunk
    let buf' := (x.call process r).2.2
    ⟨buf.unread.take (buf'.srcPos - buf.srcPos), buf'.stored⟩
  | _ => ⟨[], []⟩

/-- The calls of a run, from the start to a later turn. -/
inductive Logged (x₀ : Drive H η) : Log → Drive H η → Prop
  | start : Logged x₀ [] x₀
  | turn {log : Log} {x y : Drive H η} (h : Logged x₀ log x)
      (hturn : x.turn process r = .inl y) : Logged x₀ (log ++ [x.exchange process r]) y

/-- A run whose books are right, and the cursors it goes on with. -/
structure Books (o₀ : Sink) (log : Log) (x : Drive H η) : Prop where
  accounts : Accounts r.src o₀ log x.sink x.consumed
  owner : x.sink.owner = true
  cursors : x.buf.srcPos ≤ x.buf.srcSize
  source : x.buf.src.isNone → x.buf.srcSize = 0
  unread : x.buf.unread = (r.src.take x.fed).drop x.consumed
  offered : x.buf.srcSize - x.buf.srcPos ≤ x.fed
  fed_le : x.fed ≤ r.src.length

variable {process r} {x : Drive H η}

theorem books_start (handle : η) (heap : H.State) (hf : o₀.Fits) (hown : o₀.owner = true) :
    Books r o₀ [] (.start handle heap o₀) where
  accounts := ⟨hf, by simp [Log.made, start], by simp [Log.made, start], by simp [Log.taken,
    start, consumed, Buffer.zeroed], by simp [Log.taken, start, consumed], by simp [start, consumed]⟩
  owner := hown
  cursors := le_rfl
  source _ := rfl
  unread := by simp [start, Buffer.unread, Buffer.zeroed]
  offered := le_rfl
  fed_le := Nat.zero_le _

theorem Books.refill (h : Books r o₀ log x) : Books r o₀ log (x.refill r) := by
  unfold Drive.refill
  split_ifs with hspent
  · obtain ⟨hpos, hmore⟩ := hspent
    have hdone : x.consumed = x.fed := by simp [consumed, hpos]
    dsimp only
    set take := min (r.src.length - x.fed) r.inChunk with htake
    set slice := (r.src.drop x.fed).take take with hslice
    have hlen : slice.length = take := by
      rw [hslice, List.length_take, List.length_drop]
      omega
    set x' : Drive H η := { x with buf := x.buf.offer slice, fed := x.fed + take } with hx'
    have hcons : x'.consumed = x.fed := by
      change x.fed + take - (slice.length - 0) = x.fed
      omega
    have hsame : x'.consumed = x.consumed := hcons.trans hdone.symm
    refine ⟨hsame ▸ h.accounts, h.owner, Nat.zero_le _, nofun, ?_, ?_, ?_⟩
    · rw [hcons, List.drop_take, Nat.add_sub_cancel_left]
      exact List.drop_zero
    · change slice.length - 0 ≤ x.fed + take
      omega
    · change x.fed + take ≤ r.src.length
      omega
  · exact h

/-- A turn comes to its call with a window inside the block, or ends for want of memory. -/
theorem Books.prepare (h : Books r o₀ log x) :
    (x.prepare r).1 = .ok ∧ Books r o₀ log (x.prepare r).2 ∧
        (x.prepare r).2.sink.used + r.outChunk ≤ (x.prepare r).2.sink.size ∧
        (x.prepare r).2.handle = x.handle ∧ (x.prepare r).2.sink.contents = x.sink.contents ∧
        (x.prepare r).2.sink.used = x.sink.used ∨
      (x.prepare r).1 = .errMemory ∧ Books r o₀ log (x.prepare r).2 ∧
        (x.prepare r).2.sink = x.sink := by
  have hrefill := h.refill
  have hhandle : (x.refill r).handle = x.handle := by
    unfold Drive.refill
    split_ifs <;> rfl
  have hsink : (x.refill r).sink = x.sink := by
    unfold Drive.refill
    split_ifs <;> rfl
  unfold Drive.prepare
  dsimp only
  rw [← hhandle, ← hsink]
  generalize x.refill r = y at hrefill ⊢
  have hres := Sink.reserve_reserved r.outChunk (h := y.heap) hrefill.accounts.fits
    hrefill.owner
  generalize y.sink.reserve H y.heap r.outChunk = c at hres ⊢
  cases hres with
  | room fits owner used contents window h =>
    refine .inl ⟨rfl, ⟨?_, ?_, hrefill.cursors, hrefill.source, hrefill.unread, hrefill.offered,
      hrefill.fed_le⟩, ?_, rfl, contents, used⟩
    · exact { hrefill.accounts with
        fits := fits
        contents := contents.trans hrefill.accounts.contents
        used := used.trans hrefill.accounts.used }
    · exact owner.trans hrefill.owner
    · rw [← used] at window
      exact window
  | refused h =>
    exact .inr ⟨rfl, ⟨hrefill.accounts, hrefill.owner, hrefill.cursors, hrefill.source,
      hrefill.unread, hrefill.offered, hrefill.fed_le⟩, rfl⟩

/-- A call that serves its buffer keeps the books. -/
theorem Books.call (h : Books r o₀ log x) (hroom : x.sink.used + r.outChunk ≤ x.sink.size)
    {c : Status × η × Buffer} (hc : (x.buf.rebase x.sink.used r.outChunk).Serves c.2.2) :
    Books r o₀ (log ++ [⟨x.buf.unread.take (c.2.2.srcPos - x.buf.srcPos), c.2.2.stored⟩])
      (x.after c) := by
  obtain ⟨⟨⟨hsrc, hsize, hdst, hdsize⟩, hle, hle_size, -, hdle⟩, o, hstored, hdpos⟩ := hc
  obtain ⟨st, handle, buf⟩ := c
  simp only [Buffer.rebase] at hsrc hsize hdst hdsize hle hle_size
  simp only [Buffer.rebase, List.nil_append, Nat.zero_add] at hdle hstored hdpos
  subst hstored
  dsimp only
  have hcursors := h.cursors
  have hoffered := h.offered
  set k := buf.srcPos - x.buf.srcPos with hk
  have hcons : (x.after (st, handle, buf)).consumed = x.consumed + k := by
    change x.fed - (buf.srcSize - buf.srcPos) = x.fed - (x.buf.srcSize - x.buf.srcPos) + k
    omega
  have hunread : buf.unread = x.buf.unread.drop k := by
    rw [Buffer.unread, Buffer.unread, hsrc, List.drop_drop]
    congr 1
    omega
  have hpiece : x.buf.unread.take k = (r.src.drop x.consumed).take k := by
    rw [h.unread, List.drop_take, List.take_take, min_eq_left]
    change k ≤ x.fed - (x.fed - (x.buf.srcSize - x.buf.srcPos))
    omega
  obtain ⟨hfits, hcontents⟩ := Sink.store_contents h.accounts.fits hdst hdpos (by omega)
  have hbooks := h.accounts
  have hconsle : x.consumed + k ≤ r.src.length := by
    have := h.fed_le
    change x.fed - (x.buf.srcSize - x.buf.srcPos) + k ≤ r.src.length
    omega
  have htaken : (log ++ [⟨x.buf.unread.take k, buf.stored⟩] : Log).taken =
      r.src.take (x.consumed + k) := by
    have := hbooks.taken
    simp only [Log.taken, List.flatMap_append, List.flatMap_singleton] at this ⊢
    rw [this, hpiece, ← List.take_add]
  have hmade : (log ++ [⟨x.buf.unread.take k, buf.stored⟩] : Log).made =
      log.made ++ buf.stored := by
    simp [Log.made]
  refine ⟨⟨hfits, ?_, ?_, ?_, ?_, ?_⟩, h.owner, ?_, ?_, ?_, ?_, h.fed_le⟩
  · rw [hmade, ← List.append_assoc, ← hbooks.contents]
    exact hcontents
  · rw [hmade, List.length_append, ← Nat.add_assoc, ← hbooks.used, ← hdpos]
    rfl
  · rw [hcons, htaken]
  · rw [hcons, htaken, List.length_take, min_eq_left hconsle]
  · rw [hcons]
    exact hconsle
  · change buf.srcPos ≤ buf.srcSize
    omega
  · intro hnone
    change buf.srcSize = 0
    rw [hsize]
    exact h.source (hsrc ▸ hnone)
  · rw [hcons, ← List.drop_drop]
    exact hunread.trans (congrArg (List.drop k) h.unread)
  · change buf.srcSize - buf.srcPos ≤ x.fed
    omega

theorem Books.checkBuffer (h : Books r o₀ log x) :
    checkBuffer (x.buf.rebase x.sink.used r.outChunk) = .ok := by
  unfold Zukomp.checkBuffer
  have hcursors := h.cursors
  rw [if_neg (by simp only [Buffer.rebase]; omega), if_neg fun hnone => hnone.2 (h.source hnone.1),
    if_neg (by simp [Buffer.rebase])]

/-- Whatever the status, the sink and the count that the loop leaves are those after the call. -/
theorem judge_leaves (r : RunOpts) (x : Drive H η) (c : Status × η × Buffer) :
    Turn (fun y => y = x.after c)
      (fun e => e.2 = { (x.after c).sink with consumed := (x.after c).consumed })
      (x.judge r c) := by
  unfold judge
  dsimp only
  split_ifs <;> rfl

variable {Held : η → Prop}

theorem Books.turn (hs : Server process Held) (h : Books r o₀ log x) (hheld : Held x.handle) :
    Turn (fun y => Books r o₀ (log ++ [x.exchange process r]) y ∧ Held y.handle)
      (fun e => Accounts r.src o₀ (log ++ [x.exchange process r]) e.2 e.2.consumed)
      (x.turn process r) := by
  unfold Drive.turn exchange
  rcases h.prepare with ⟨hok, hbooks, hroom, hhandle, -⟩ | ⟨hfail, hbooks, -⟩
  · rcases hprep : x.prepare r with ⟨st, y⟩
    rw [hprep] at hok hbooks hroom hhandle
    obtain rfl : st = .ok := hok
    dsimp only at hbooks hroom hhandle ⊢
    rw [if_neg (by simp)]
    have hheld : Held y.handle := hhandle ▸ hheld
    have hserves := hs.serves _ (y.mode r) hheld hbooks.checkBuffer
    have hnext := hbooks.call hroom hserves
    refine (judge_leaves r y (y.call process r)).mono ?_ ?_
    · rintro z rfl
      exact ⟨hnext, hs.held _ (y.mode r) hheld⟩
    · rintro ⟨st, o⟩ (rfl : o = _)
      exact hnext.accounts.leave
  · rcases hprep : x.prepare r with ⟨st, y⟩
    rw [hprep] at hfail hbooks
    obtain rfl : st = .errMemory := hfail
    dsimp only at hbooks ⊢
    rw [if_pos (by simp)]
    exact hbooks.accounts.leave.idle

theorem Books.logged (hs : Server process Held) {x₀ : Drive H η} (h₀ : Books r o₀ [] x₀)
    (hheld : Held x₀.handle) (h : Logged process r x₀ log x) :
    Books r o₀ log x ∧ Held x.handle := by
  induction h with
  | start => exact ⟨h₀, hheld⟩
  | turn _ hturn ih =>
    have hnext := ih.1.turn hs ih.2
    rw [hturn] at hnext
    exact hnext

theorem exists_logged {x₀ : Drive H η} (h : Reaches (turn process r) x₀ x) :
    ∃ log, Logged process r x₀ log x := by
  induction h with
  | refl => exact ⟨[], .start⟩
  | tail _ hturn ih =>
    obtain ⟨log, hlog⟩ := ih
    exact ⟨_, hlog.turn hturn⟩

end Drive

/-- A run of `zu_int_run_whole` that has come to its loop, after the calls of the log. -/
def InLoop (H : Heap) (lookup : CodecId → Option CodecVtable) (r : RunOpts) (heap : H.State)
    (o₀ : Sink) (log : Log) (x : Drive H Handle) : Prop :=
  ¬ (r.inChunk = 0 ∨ r.outChunk = 0) ∧
    ∃ handle, handleNew lookup r = .ok handle ∧
      Drive.Logged handleProcess r (.start handle heap o₀) log x

/-- A turn reserves its window inside the block, or ends the run for want of memory with the sink
as it was. -/
def Handed {H : Heap} {η : Type*} (process : η → Buffer → Flush → Status × η × Buffer) (r : RunOpts)
    (x : Drive H η) : Prop :=
  match x.prepare r with
  | (.ok, y) => y.sink.contents = x.sink.contents ∧ y.sink.used = x.sink.used ∧
      y.sink.used + r.outChunk ≤ y.sink.block.length
  | (st, y) => st = .errMemory ∧ y.sink = x.sink ∧ x.turn process r = .inr (y.leave .errMemory)

theorem Drive.Books.handed {H : Heap} {η : Type*} {r : RunOpts} {o₀ : Sink} {log : Log}
    {x : Drive H η} (process : η → Buffer → Flush → Status × η × Buffer)
    (h : Drive.Books r o₀ log x) : Handed process r x := by
  unfold Handed
  rcases h.prepare with ⟨hok, hbooks, hroom, -, hcontents, hused⟩ | ⟨hfail, -, hsink⟩
  · rcases hprep : x.prepare r with ⟨st, y⟩
    rw [hprep] at hok hbooks hroom hcontents hused
    obtain rfl : st = .ok := hok
    exact ⟨hcontents, hused, hbooks.accounts.fits.block ▸ hroom⟩
  · rcases hprep : x.prepare r with ⟨st, y⟩
    rw [hprep] at hfail hsink
    obtain rfl : st = .errMemory := hfail
    refine ⟨rfl, hsink, ?_⟩
    rw [Drive.turn, hprep]
    exact if_pos (by simp)

/-- The books are right throughout a run over codecs that serve their buffers. -/
theorem InLoop.books {H : Heap} {lookup : CodecId → Option CodecVtable}
    (hserves : ∀ codec v, lookup codec = some v → v.Serves) {r : RunOpts} {heap : H.State}
    {o₀ : Sink} (hf : o₀.Fits) (hown : o₀.owner = true) {log : Log} {x : Drive H Handle}
    (h : InLoop H lookup r heap o₀ log x) : Drive.Books r o₀ log x ∧ x.handle.codec.Serves := by
  obtain ⟨-, handle, hnew, hlog⟩ := h
  exact Drive.Books.logged handleProcess_server (Drive.books_start handle heap hf hown)
    (hserves _ _ (handleNew_found hnew)) hlog

/-- A run that returns has left the sink alone, or has come to the end of its loop. -/
theorem runsInto_inLoop {H : Heap} {lookup : CodecId → Option CodecVtable} {r : RunOpts}
    {heap : H.State} {o₀ : Sink} {e : Status × Sink} (h : RunsInto H lookup r heap o₀ e) :
    e.2 = o₀ ∨ ∃ log x, InLoop H lookup r heap o₀ log x ∧ x.turn handleProcess r = .inr e := by
  unfold RunsInto at h
  by_cases hchunks : r.inChunk = 0 ∨ r.outChunk = 0
  · rw [if_pos hchunks] at h
    exact .inl (congrArg Prod.snd h)
  rw [if_neg hchunks] at h
  rcases hnew : handleNew lookup r with st | handle
  · rw [hnew] at h
    exact .inl (congrArg Prod.snd h)
  · rw [hnew] at h
    obtain ⟨x, hreach, hturn⟩ := h
    obtain ⟨log, hlog⟩ := Drive.exists_logged hreach
    exact .inr ⟨log, x, ⟨hchunks, handle, hnew, hlog⟩, hturn⟩

end Zukomp
