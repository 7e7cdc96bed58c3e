import Zukomp.Block.Drain
import Zukomp.Builtins
import Zukomp.Core.Refinement
import Zukomp.Frames.Drain

/-! # The windows of the built-in codecs

Each of them only reads the input it is shown and writes into the room it is shown, so the drive
loop accounts for every byte that it moves, and a run into a block of memory does what one into a
list of bytes does.
-/

namespace Zukomp

open Library

/-! ## One call -/

theorem zstdEncoderProcess_advances {Z : Zstd} (s : ZstdEncoder Z) (w : Window) (mode : Flush) :
    Window.Advances w (zstdEncoderProcess s w mode).2.2 := by
  unfold zstdEncoderProcess
  split_ifs
  · exact .refl w
  refine runLoop_keeps (fun x : ZstdEncoder Z × Window => Window.Advances w x.2)
    (fun r : Status × ZstdEncoder Z × Window => Window.Advances w r.2.2) ?_ (fun _ h => h)
    (.refl w) _
  rintro ⟨s, w'⟩ hw
  dsimp only at hw
  have hmoved : Window.Advances w ((w'.take (Z.compress s.cctx w'.input w'.room (zstdOp mode)).used).put
      (Z.compress s.cctx w'.input w'.room (zstdOp mode)).out) :=
    hw.trans ⟨_, _, Z.compress_used_le .., Z.compress_out_le .., rfl⟩
  unfold zstdEncoderStep
  dsimp only
  split
  · exact hw
  · split_ifs <;> exact hmoved

theorem zstdDecoderProcess_advances {Z : Zstd} (s : ZstdDecoder Z) (w : Window) (mode : Flush) :
    Window.Advances w (zstdDecoderProcess s w mode).2.2 :=
  framedProcess_advances _ _ s.toFramedState w mode

theorem lz4fEncoderProcess_advances {F : Lz4f} (s : Lz4fEncoder F) (w : Window) (mode : Flush) :
    Window.Advances w (lz4fEncoderProcess s w mode).2.2 := by
  refine runLoop_keeps (fun x : (Lz4fEncoder F × Bool) × Window => Window.Advances w x.2)
    (fun r : Status × Lz4fEncoder F × Window => Window.Advances w r.2.2) ?_ (fun _ h => h)
    (.refl w) _
  rintro ⟨⟨s, flushed⟩, w'⟩ hw
  dsimp only at hw
  have hdrained : Window.Advances w (lz4Drain s.stage w').2 :=
    hw.trans ⟨_, _, .put (by simp)⟩
  have hstaged (s : Lz4fEncoder F) (b : Bool) {v : Window} (hv : Window.Advances w v)
      (e : Except Lz4fError (List UInt8)) :
      Turn (fun x : (Lz4fEncoder F × Bool) × Window => Window.Advances w x.2)
        (fun r : Status × Lz4fEncoder F × Window => Window.Advances w r.2.2)
        (lz4fStaged s b v e) := by
    cases e <;> exact hv
  unfold lz4fEncoderStep
  dsimp only
  split_ifs
  · exact hdrained
  · exact hdrained
  · exact hdrained
  · exact hstaged _ _ hdrained _
  · split
    · exact hstaged _ _ hdrained _
    · exact hstaged _ _ (hdrained.trans ⟨_, _, .take (by omega)⟩) _
  · split <;> exact hstaged _ _ hdrained _
  · exact hstaged _ _ hdrained _
  · exact hdrained

/-- liblz4's compressors write no more than the capacity they are given. -/
structure Lz4.Confined (Z : Lz4) : Prop where
  fast : ∀ {accel x cap b}, Z.compressFast accel x cap = some b → b.length ≤ cap
  hc : ∀ {level x cap b}, Z.compressHC level x cap = some b → b.length ≤ cap

theorem Lz4.Confined.compress {Z : Lz4} (hz : Z.Confined) {level : ℤ} {x b : List UInt8} {cap : ℕ}
    (h : lz4bCompress Z level x cap = some b) : b.length ≤ cap := by
  unfold lz4bCompress at h
  dsimp only at h
  by_cases hlevel : lz4hcLevelMin ≤ lz4Level level
  · rw [if_pos hlevel] at h
    exact hz.hc h
  · rw [if_neg hlevel] at h
    exact hz.fast h

theorem lz4bEncoderProcess_advances {Z : Lz4} (hz : Z.Confined) (s : Lz4bState) (w : Window)
    (mode : Flush) : Window.Advances w (lz4bEncoderProcess Z s w mode).2.2 := by
  have hgather := lz4bGather_advances s w
  unfold lz4bEncoderProcess
  split_ifs with hdone hmode hone
  · exact lz4bDrain_advances s w
  · unfold lz4bHold
    split
    · next heq => rwa [heq] at hgather
    · exact hgather
  · split
    · exact .refl w
    · next block hblock =>
      have hfits : block.length ≤ (w.take w.input.length).room :=
        (hz.compress hblock).trans hone.2.2.2
      exact Window.Advances.trans ⟨_, _, .take le_rfl⟩ ⟨_, _, .put hfits⟩
  · split
    · next heq =>
      rw [heq] at hgather
      split_ifs
      · exact hgather
      · split
        · exact hgather
        · exact hgather.trans (lz4bDrain_advances _ _)
    · exact hgather

/-! ## Codecs -/

theorem CodecVtable.Serves.of_windows {v : CodecVtable}
    {enc : v.Enc → Window → Flush → Status × v.Enc × Window} (henc : v.encoderProcess = onBuffer enc)
    (hadv : ∀ s w mode, Window.Advances w (enc s w mode).2.2)
    {dec : v.Dec → Window → Flush → Status × v.Dec × Window} (hdec : v.decoderProcess = onBuffer dec)
    (hadv' : ∀ s w mode, Window.Advances w (dec s w mode).2.2) : v.Serves :=
  ⟨henc ▸ onBuffer_serves hadv, hdec ▸ onBuffer_serves hadv'⟩

theorem identityCodec_serves : identityCodec.Serves :=
  have hadv (s : Unit) (w : Window) (mode : Flush) :
      Window.Advances w (identityProcess s w mode).2.2 := ⟨_, _, identityProcess_moved w mode⟩
  .of_windows rfl hadv rfl hadv

theorem deflateVtable_serves (M : Miniz) (codec : CodecId) (wrap : WrapKind) :
    (deflateVtable M codec wrap).Serves :=
  .of_windows rfl deflateProcess_advances rfl deflateProcess_advances

theorem Libraries.codecs_serve {K : Libraries} (hz : K.lz4.Confined) {v : CodecVtable}
    (hv : v ∈ K.codecs) : v.Serves := by
  simp only [codecs, List.mem_cons, List.not_mem_nil, or_false] at hv
  obtain rfl | rfl | rfl | rfl | rfl | rfl | rfl := hv
  · exact identityCodec_serves
  · exact deflateVtable_serves K.miniz _ _
  · exact deflateVtable_serves K.miniz _ _
  · exact deflateVtable_serves K.miniz _ _
  · exact .of_windows rfl zstdEncoderProcess_advances rfl zstdDecoderProcess_advances
  · exact .of_windows rfl lz4fEncoderProcess_advances rfl (framedProcess_advances _ _)
  · exact .of_windows rfl (lz4bEncoderProcess_advances hz) rfl (lz4bDecoder_advances K.lz4)

/-- None of them can tell where its windows lie. -/
theorem Libraries.codecs_uniform {K : Libraries} {v : CodecVtable} (hv : v ∈ K.codecs) :
    v.Uniform := by
  simp only [codecs, List.mem_cons, List.not_mem_nil, or_false] at hv
  obtain rfl | rfl | rfl | rfl | rfl | rfl | rfl := hv
  · exact .of_windows identityProcess identityProcess rfl rfl
  · exact .of_windows deflateProcess deflateProcess rfl rfl
  · exact .of_windows deflateProcess deflateProcess rfl rfl
  · exact .of_windows deflateProcess deflateProcess rfl rfl
  · exact .of_windows zstdEncoderProcess zstdDecoderProcess rfl rfl
  · exact .of_windows lz4fEncoderProcess lz4fDecoderProcess rfl rfl
  · exact .of_windows (lz4bEncoderProcess K.lz4) (lz4bDecoderProcess K.lz4) rfl rfl

/-! ## Accounts -/

/-- In every run the sink holds what the codec has made, each byte once and in order, inside a
block that is never too small, and the count is that of the bytes the codec has taken; a size that
would wrap is a memory error. -/
theorem runWhole_accounts {K : Libraries} (hz : K.lz4.Confined) (H : Heap)
    {lookup : CodecId → Option CodecVtable}
    (hserves : ∀ codec v, lookup codec = some v → v ∈ K.codecs ∨ v.Serves) (r : RunOpts)
    (heap : H.State) {o₀ : Sink} (hf : o₀.Fits) (hown : o₀.owner = true) :
    (∀ log x, InLoop H lookup r heap o₀ log x →
      Accounts r.src o₀ log x.sink x.consumed ∧ Handed handleProcess r x) ∧
    (∀ st o, RunsInto H lookup r heap o₀ (st, o) → o = o₀ ∨
      ∃ log x, InLoop H lookup r heap o₀ log x ∧ x.turn handleProcess r = .inr (st, o) ∧
        Accounts r.src o₀ (log ++ [x.exchange handleProcess r]) o o.consumed) ∧
    ∀ current needed, current < wordSize →
      (∃ next, grow current needed = .ok next ∧ current + needed ≤ next ∧ next < wordSize) ∨
        grow current needed = .error .errMemory ∧ wordSize ≤ current + needed := by
  have hserves' : ∀ codec v, lookup codec = some v → v.Serves := fun codec v h =>
    (hserves codec v h).elim (Libraries.codecs_serve hz) id
  refine ⟨fun log x h => ?_, fun st o hrun => ?_, fun current needed => grow_cases needed⟩
  · have hbooks := (h.books hserves' hf hown).1
    exact ⟨hbooks.accounts, hbooks.handed _⟩
  · rcases runsInto_inLoop hrun with hsame | ⟨log, x, h, hturn⟩
    · exact .inl hsame
    · obtain ⟨hbooks, hheld⟩ := h.books hserves' hf hown
      have haccounts := hbooks.turn handleProcess_server hheld
      rw [hturn] at haccounts
      exact .inr ⟨log, x, h, hturn, haccounts⟩

theorem refLz4_confined : refLz4.Confined := by
  constructor <;> intro _ x cap b h <;> dsimp only [refLz4] at h <;> split_ifs at h with hle <;>
    cases h <;> exact hle

/-- An allocator that grants every request. -/
def granting : Heap where
  State := Unit
  realloc _ block n := (some (block.take n ++ List.replicate (n - block.length) 0), ())
  resized := by
    rintro _ block n bigger ⟨rfl⟩
    constructor
    · simp only [List.length_append, List.length_take, List.length_replicate]
      omega
    · rcases le_total n block.length with h | h
      · simp [Nat.sub_eq_zero_of_le h, List.take_take, h]
      · rw [List.take_of_length_le h, List.take_left]

/-- Three bytes to copy, two at a time. -/
def copyRun : RunOpts where
  src := [1, 2, 3]
  encode := true
  codec := codecIdentity
  level := levelDefault
  maxOutput := 0
  maxRatio := 0
  decFlags := 0
  expectedSize := 0
  inChunk := 2
  outChunk := 2
  flushEvery := 0

/-- After the first turn of the copy, two bytes have been taken and are in the sink. -/
theorem runWhole_accounts_copy : ∃ x, InLoop granting identityOnly copyRun () .fresh
      [⟨[1, 2], [1, 2]⟩] x ∧ Accounts [1, 2, 3] .fresh [⟨[1, 2], [1, 2]⟩] x.sink x.consumed := by
  have hin : ∃ x, InLoop granting identityOnly copyRun () .fresh [⟨[1, 2], [1, 2]⟩] x :=
    ⟨_, by decide, _, rfl, .turn .start rfl⟩
  obtain ⟨x, hx⟩ := hin
  have hserves : ∀ codec v, identityOnly codec = some v → v ∈ Libraries.ref.codecs ∨ v.Serves := by
    rintro _ _ ⟨rfl⟩
    exact .inr identityCodec_serves
  exact ⟨x, hx, ((runWhole_accounts (K := Libraries.ref) refLz4_confined granting hserves copyRun ()
    Sink.fresh_fits rfl).1 _ x hx).1⟩

/-! ## Memory and bytes -/

/-- A run into a block of memory ends as the run into a list of bytes does, with the same bytes and
counts, or the allocator refuses the block that a turn asks for: then it is a memory error, with
the bytes written so far. It ends wherever the other does. -/
theorem runsInto_refines {K : Libraries} (hz : K.lz4.Confined) (H : Heap)
    {lookup : CodecId → Option CodecVtable} {r : RunOpts}
    (hlookup : ∀ v, lookup r.codec = some v → v ∈ K.codecs ∨ v.Serves ∧ v.Uniform)
    (heap : H.State) {o₀ : Sink} {out₀ : OutBuf} (hf : o₀.Fits) (hown : o₀.owner = true)
    (hh : o₀.Holds out₀) :
    Refines (RunRefused H lookup r heap o₀) (RunsInto H lookup r heap o₀)
      (RunsWhole lookup r out₀) := by
  refine RunsInto.refines (fun v hv => ?_) hf hown hh
  rcases hlookup v hv with hbuiltin | hother
  · exact ⟨Libraries.codecs_serve hz hbuiltin, Libraries.codecs_uniform hbuiltin⟩
  · exact hother

theorem granting_grants {lookup : CodecId → Option CodecVtable} {r : RunOpts} {o₀ : Sink} :
    ¬ RunRefused granting lookup r () o₀ := by
  rintro ⟨_, _, _, _, _, _, _, _, _, h⟩
  cases h

theorem runsInto_refines_copy : ∃ e, RunsInto granting identityOnly copyRun () .fresh e ∧
    e.1 = .streamEnd ∧ e.2.contents = [1, 2, 3] := by
  have hlookup : ∀ v, identityOnly copyRun.codec = some v →
      v ∈ Libraries.ref.codecs ∨ v.Serves ∧ v.Uniform := by
    rintro _ ⟨rfl⟩
    exact .inl (by simp [Libraries.codecs])
  have hrefines := runsInto_refines (K := Libraries.ref) refLz4_confined granting hlookup ()
    Sink.fresh_fits rfl Sink.fresh_holds
  have hwhole : RunsWhole identityOnly copyRun .empty (.streamEnd, ⟨_, [1, 2, 3], 3⟩) :=
    .turn rfl (.done rfl)
  obtain ⟨e, he⟩ := hrefines.returns _ hwhole
  obtain ⟨e', he', hends⟩ :=
    (hrefines.ends e he).resolve_right fun hbroken => granting_grants hbroken.2.1
  obtain rfl := he'.unique hwhole
  exact ⟨e, he, hends.status, hends.holds.contents⟩

end Zukomp
