import Mathlib.Tactic

/-! # The public types of zukomp.h

Statuses, flush modes, cursor buffers, option structs and the codec vtable. Sizes
and cursors are natural numbers; the 32- and 64-bit fields of the option structs
keep their width. A pointer is `none` when it is NULL.
-/

namespace Zukomp

inductive Status where
  | ok | needInput | needOutput | streamEnd
  | errInvalidArgument | errUnsupported | errInvalidData | errTruncated | errChecksum
  | errTrailing | errMemory | errOutputLimit | errRatioLimit | errInternal
  deriving DecidableEq

/-- Everything from `ZU_ERR_INVALID_ARGUMENT` on is an error. -/
def Status.isError : Status → Bool
  | .ok | .needInput | .needOutput | .streamEnd => false
  | _ => true

inductive Flush where
  | run | flush | finish
  deriving DecidableEq

/-- `SIZE_MAX` and `UINT64_MAX` plus one. -/
abbrev wordSize : ℕ := 2 ^ 64

/-- `zu_buffer`. The bytes `src` points at fill `srcSize`; `dst` is an address the
core never inspects, and `stored` is what has been written through it, in order. -/
structure Buffer where
  src : Option (List UInt8)
  srcSize : ℕ
  srcPos : ℕ
  dst : Option ℕ
  dstSize : ℕ
  dstPos : ℕ
  stored : List UInt8
  readable : ∀ bytes, src = some bytes → bytes.length = srcSize

theorem length_of_some (bytes : List UInt8) :
    ∀ bytes', some bytes = some bytes' → bytes'.length = bytes.length := by
  rintro _ ⟨rfl⟩
  rfl

/-- What a codec sees of a buffer: the unread input and the room left, together
with the bytes it has written so far in this call. -/
@[ext] structure Window where
  input : List UInt8
  room : ℕ
  written : List UInt8

namespace Window

def take (w : Window) (n : ℕ) : Window := { w with input := w.input.drop n }

def put (w : Window) (bytes : List UInt8) : Window :=
  { w with room := w.room - bytes.length, written := w.written ++ bytes }

@[simp] theorem take_input (w : Window) (n : ℕ) : (w.take n).input = w.input.drop n := rfl
@[simp] theorem take_room (w : Window) (n : ℕ) : (w.take n).room = w.room := rfl
@[simp] theorem take_written (w : Window) (n : ℕ) : (w.take n).written = w.written := rfl
@[simp] theorem put_input (w : Window) (bs : List UInt8) : (w.put bs).input = w.input := rfl
@[simp] theorem put_room (w : Window) (bs : List UInt8) :
    (w.put bs).room = w.room - bs.length := rfl
@[simp] theorem put_written (w : Window) (bs : List UInt8) :
    (w.put bs).written = w.written ++ bs := rfl

@[simp] theorem take_zero (w : Window) : w.take 0 = w := by simp [take]
@[simp] theorem put_nil (w : Window) : w.put [] = w := by simp [put]

theorem put_put (w : Window) (bs cs : List UInt8) : (w.put bs).put cs = w.put (bs ++ cs) := by
  simp [put, Nat.sub_sub]

theorem take_take (w : Window) (m n : ℕ) : (w.take m).take n = w.take (m + n) := by
  simp [take]

theorem put_take (w : Window) (bs : List UInt8) (n : ℕ) :
    (w.put bs).take n = (w.take n).put bs := rfl

/-- `w'` is `w` after reading `n` bytes of its input and writing `o` into its room. -/
structure Moved (w : Window) (n : ℕ) (o : List UInt8) (w' : Window) : Prop where
  read_le : n ≤ w.input.length
  write_le : o.length ≤ w.room
  eq : w' = (w.take n).put o

/-- The codec advances within the window it is shown. -/
def Advances (w w' : Window) : Prop := ∃ n o, Moved w n o w'

theorem Moved.refl (w : Window) : Moved w 0 [] w := ⟨by simp, by simp, by simp⟩

theorem Moved.trans {w w' w'' : Window} {m n : ℕ} {o p : List UInt8} (h : Moved w m o w')
    (h' : Moved w' n p w'') : Moved w (m + n) (o ++ p) w'' := by
  obtain ⟨h1, h2, rfl⟩ := h
  obtain ⟨h3, h4, rfl⟩ := h'
  simp only [put_input, take_input, List.length_drop, put_room, take_room] at h3 h4
  refine ⟨by omega, by simp only [List.length_append]; omega, ?_⟩
  rw [put_take, put_put, take_take]

theorem Moved.take {w : Window} {n : ℕ} (h : n ≤ w.input.length) : Moved w n [] (w.take n) :=
  ⟨h, by simp, by simp⟩

theorem Moved.put {w : Window} {o : List UInt8} (h : o.length ≤ w.room) :
    Moved w 0 o (w.put o) := ⟨by simp, h, by simp⟩

theorem Advances.refl (w : Window) : Advances w w := ⟨0, [], .refl w⟩

theorem Advances.trans {w w' w'' : Window} (h : Advances w w')
    (h' : Advances w' w'') : Advances w w'' := by
  obtain ⟨m, o, h⟩ := h
  obtain ⟨n, p, h'⟩ := h'
  exact ⟨_, _, h.trans h'⟩

end Window

namespace Buffer

def unread (b : Buffer) : List UInt8 := (b.src.getD []).drop b.srcPos

def availIn (b : Buffer) : ℕ := b.srcSize - b.srcPos
def availOut (b : Buffer) : ℕ := b.dstSize - b.dstPos

/-- The window a codec is shown. -/
def window (b : Buffer) : Window := ⟨b.unread, b.availOut, []⟩

/-- Advance both cursors to where a codec left the window. -/
def advance (b : Buffer) (w : Window) : Buffer :=
  { b with
    srcPos := b.srcPos + (b.unread.length - w.input.length)
    dstPos := b.dstPos + w.written.length
    stored := b.stored ++ w.written }

/-- A caller's buffer over `bytes` with a fresh output window of `room` bytes. -/
def ofParts (bytes : List UInt8) (room : ℕ) : Buffer where
  src := some bytes
  srcSize := bytes.length
  srcPos := 0
  dst := some 1
  dstSize := room
  dstPos := 0
  stored := []
  readable := length_of_some bytes

@[simp] theorem unread_ofParts (bytes : List UInt8) (room : ℕ) :
    (ofParts bytes room).unread = bytes := by simp [unread, ofParts]

@[simp] theorem stored_ofParts (bytes : List UInt8) (room : ℕ) :
    (ofParts bytes room).stored = [] := rfl

@[simp] theorem availOut_ofParts (bytes : List UInt8) (room : ℕ) :
    (ofParts bytes room).availOut = room := by simp [availOut, ofParts]

@[simp] theorem window_ofParts (bytes : List UInt8) (room : ℕ) :
    (ofParts bytes room).window = ⟨bytes, room, []⟩ := by simp [window]

/-- The four fields a callee must leave alone. -/
structure SameFields (b b' : Buffer) : Prop where
  src : b'.src = b.src
  srcSize : b'.srcSize = b.srcSize
  dst : b'.dst = b.dst
  dstSize : b'.dstSize = b.dstSize

theorem SameFields.refl (b : Buffer) : SameFields b b := ⟨rfl, rfl, rfl, rfl⟩

/-- A callee that only advances the two cursors, within the window it is shown. -/
structure Advances (b b' : Buffer) : Prop extends SameFields b b' where
  src_le : b.srcPos ≤ b'.srcPos
  src_le_size : b'.srcPos ≤ b.srcSize
  dst_le : b.dstPos ≤ b'.dstPos
  dst_le_size : b'.dstPos ≤ b.dstSize

end Buffer

/-! ## Options -/

abbrev CodecId := UInt32

/-- `ZU_LEVEL_DEFAULT` is `INT32_MIN`. -/
def levelDefault : ℤ := -2147483648

def decRejectTrailing : UInt32 := 0x00000001
def decConcatMembers : UInt32 := 0x00000002
def decExpectedSize : UInt32 := 0x00000004

structure EncoderOpts where
  structSize : UInt32
  codec : CodecId
  level : ℤ
  flags : UInt32

structure DecoderOpts where
  structSize : UInt32
  codec : CodecId
  maxOutput : UInt64
  maxRatio : UInt32
  flags : UInt32
  expectedSize : UInt64

/-- `sizeof(zu_encoder_opts)`, also `ZU_ENCODER_OPTS_REQUIRED_SIZE`. -/
def encoderOptsSize : UInt32 := 16
/-- `ZU_DECODER_OPTS_REQUIRED_SIZE`, also `offsetof(zu_decoder_opts, expected_size)`. -/
def decoderOptsRequiredSize : UInt32 := 24
/-- `sizeof(zu_decoder_opts)` -/
def decoderOptsSize : UInt32 := 32

namespace DecoderOpts

def rejectTrailing (o : DecoderOpts) : Bool := o.flags &&& decRejectTrailing != 0
def concatMembers (o : DecoderOpts) : Bool := o.flags &&& decConcatMembers != 0
def hasExpected (o : DecoderOpts) : Bool := o.flags &&& decExpectedSize != 0

end DecoderOpts

/-! ## Codec vtable -/

def canEncode : UInt32 := 0x00000001
def canDecode : UInt32 := 0x00000002
def canFlush : UInt32 := 0x00000004

/-- `zu_codec_vtable`: what the stream driver calls, over the codec's own encoder
and decoder states. -/
structure CodecVtable where
  codec : CodecId
  levelMin : ℤ
  levelMax : ℤ
  levelDefault : ℤ
  flags : UInt32
  Enc : Type
  Dec : Type
  encoderNew : EncoderOpts → Except Status Enc
  encoderProcess : Enc → Buffer → Flush → Status × Enc × Buffer
  encoderReset : Option (Enc → EncoderOpts → Status × Enc)
  decoderNew : DecoderOpts → Except Status Dec
  decoderProcess : Dec → Buffer → Flush → Status × Dec × Buffer
  decoderReset : Option (Dec → DecoderOpts → Status × Dec)

def CodecVtable.can (v : CodecVtable) (flag : UInt32) : Bool := v.flags &&& flag != 0

/-- A codec written over windows, as a vtable entry over buffers. -/
def onBuffer {σ : Type} (process : σ → Window → Flush → Status × σ × Window) :
    σ → Buffer → Flush → Status × σ × Buffer := fun s buf mode =>
  match process s buf.window mode with
  | (st, s', w) => (st, s', buf.advance w)

namespace Buffer

theorem unread_length_le (b : Buffer) : b.unread.length ≤ b.srcSize - b.srcPos := by
  cases h : b.src with
  | none => simp [unread, h]
  | some bytes => simp [unread, h, b.readable bytes h]

theorem unread_length {b : Buffer} (h : b.src.isSome) :
    b.unread.length = b.srcSize - b.srcPos := by
  obtain ⟨bytes, hb⟩ := Option.isSome_iff_exists.mp h
  simp [unread, hb, b.readable bytes hb]

/-- A codec that stays within its window only advances the cursors of the buffer. -/
theorem advances_advance {b : Buffer} {w : Window} (h : Window.Advances b.window w)
    (hsrc : b.srcPos ≤ b.srcSize) (hdst : b.dstPos ≤ b.dstSize) : Advances b (b.advance w) := by
  obtain ⟨n, o, hn, ho, rfl⟩ := h
  have hlen := b.unread_length_le
  simp only [window, availOut] at hn ho
  refine ⟨⟨rfl, rfl, rfl, rfl⟩, ?_, ?_, ?_, ?_⟩ <;>
    simp only [advance, window, Window.put_input, Window.take_input, Window.put_written,
      Window.take_written, List.nil_append, List.length_drop] <;> omega

theorem advance_moved {buf : Buffer} {w' : Window} {u : ℕ} {o : List UInt8}
    (hm : buf.window.Moved u o w') : (buf.advance w').unread = buf.unread.drop u ∧
      (buf.advance w').stored = buf.stored ++ o ∧ (buf.advance w').availOut = w'.room := by
  obtain ⟨hu, -, rfl⟩ := hm
  have hu : u ≤ buf.unread.length := hu
  refine ⟨?_, ?_, ?_⟩
  · have hpos : (buf.advance ((buf.window.take u).put o)).srcPos = buf.srcPos + u := by
      change buf.srcPos + (buf.unread.length - (buf.unread.drop u).length) = _
      rw [List.length_drop, Nat.sub_sub_self hu]
    rw [Buffer.unread, hpos, ← List.drop_drop]
    rfl
  · simp [Buffer.advance, Buffer.window]
  · simp [Buffer.advance, Buffer.window, Buffer.availOut, Nat.sub_add_eq]

end Buffer

end Zukomp
