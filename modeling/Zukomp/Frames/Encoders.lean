import Zukomp.Core.Progress
import Zukomp.Frames.Bound
import Zukomp.Frames.Writer
import Zukomp.Frames.Zstd

/-! # Progress of the framed encoders

Both libraries are told the size of a frame that begins under `ZU_FINISH`, and fail for a reason of
their own when another comes. Up to that they move whenever they can.
-/

namespace Zukomp

open Library

/-! ## zstd -/

section Zstd

variable {Z : Zstd}

/-- A call of the compressor that ends the frame. -/
def ZstdStep.Ends {σ : Type} (r : ZstdStep σ) (op : ZstdEnd) : Prop :=
  op = .eEnd ∧ r.remaining = .ok 0

/-- What a call of the compressor is assumed to do, up to the one that ends the frame. `Takes` are
the calls in keeping with the size that it has been told. -/
structure ZstdMoves {σ : Type} (Live : σ → Prop) (Held : σ → ℕ) (Takes : σ → ℕ → ZstdEnd → Prop)
    (z : σ) (input : List UInt8) (room : ℕ) (op : ZstdEnd) (r : ZstdStep σ) : Prop where
  known : ∀ {code}, r.remaining = .error code → Takes z input.length op → code ≠ .other
  live : ∀ {n}, r.remaining = .ok n → ¬ r.Ends op → Live r.state
  moves : ∀ {n}, r.remaining = .ok n → ¬ r.Ends op → room ≠ 0 →
    input ≠ [] ∨ op ≠ .eContinue ∧ n ≠ 0 → ¬ (r.used = 0 ∧ r.out = [])
  held : ∀ {n}, r.remaining = .ok n → ¬ r.Ends op → r.used = 0 →
    Held r.state + r.out.length ≤ Held z
  takes : ∀ {n}, r.remaining = .ok n → ¬ r.Ends op → Takes z input.length op →
    Takes r.state (input.length - r.used) op

/-- The compressor moves until it has failed or ended its frame. It is told a size at the end of
its input only. -/
structure Zstd.EncoderMoves (Z : Zstd) where
  Live : Z.CCtx → Prop
  Held : Z.CCtx → ℕ
  Takes : Z.CCtx → ℕ → ZstdEnd → Prop
  untold : ∀ {z n op}, op ≠ .eEnd → Takes z n op → ∀ n' op', Takes z n' op'
  create : ∀ {z}, Z.createCCtx = some z → Live z ∧ ∀ n op, Takes z n op
  level : ∀ {z z' lv}, Z.setLevel z lv = some z' → (Live z ∧ ∀ n op, Takes z n op) →
    Live z' ∧ ∀ n op, Takes z' n op
  checksum : ∀ {z z'}, Z.setChecksumFlag z = some z' → (Live z ∧ ∀ n op, Takes z n op) →
    Live z' ∧ ∀ n op, Takes z' n op
  reset : ∀ {z z'}, Z.resetCCtx z = some z' → Live z' ∧ ∀ n op, Takes z' n op
  compress : ∀ {z} input room op, Live z →
    ZstdMoves Live Held Takes z input room op (Z.compress z input room op)

def zstdEncoderGauge (D : Z.EncoderMoves) : Gauge (ZstdEncoder Z) where
  Sound s := s.done = false → D.Live s.cctx
  Held s := D.Held s.cctx
  Takes s n mode := D.Takes s.cctx n (zstdOp mode)

variable {D : Z.EncoderMoves} {s : ZstdEncoder Z} {w : Window} {mode : Flush}

/-- A compressor that has been told nothing. -/
def ZstdUntold (D : Z.EncoderMoves) (z : Z.CCtx) : Prop := D.Live z ∧ ∀ n op, D.Takes z n op

theorem ZstdUntold.ready {D : Z.EncoderMoves} (h : ZstdUntold D s.cctx) :
    (zstdEncoderGauge D).Sound s ∧ ∀ n mode, (zstdEncoderGauge D).Takes s n mode :=
  ⟨fun _ => h.1, fun n mode => h.2 n (zstdOp mode)⟩

/-- What a reference compressor has taken, and once it is told to end what is left of the frame. -/
structure RefZstdWriter where
  taken : List UInt8
  owed : Option (List UInt8)

/-- Give as much as fits. With all given it is ready for another frame. -/
def RefZstdWriter.give (taken owed : List UInt8) (used room : ℕ) : ZstdStep RefZstdWriter :=
  ⟨.ok (owed.drop room).length, if owed.length ≤ room then ⟨[], none⟩ else ⟨taken, some (owed.drop room)⟩,
    used, owed.take room⟩

/-- A payload without a frame is refused. -/
def refZstdWriterStep (frame : List UInt8 → Option (List UInt8)) (z : RefZstdWriter)
    (input : List UInt8) (room : ℕ) (op : ZstdEnd) : ZstdStep RefZstdWriter :=
  match z.owed with
  | some owed => RefZstdWriter.give z.taken owed 0 room
  | none =>
    if op = .eEnd then
      match frame (z.taken ++ input) with
      | some b => RefZstdWriter.give (z.taken ++ input) b input.length room
      | none => ⟨.error .memoryAllocation, z, 0, []⟩
    else ⟨.ok 0, ⟨z.taken ++ input, none⟩, input.length, []⟩

/-- A libzstd that also writes the frame of the letter `a`, with its checksum. -/
def refZstdFrame (x : List UInt8) : Option (List UInt8) :=
  if x = [0x61] then
    some [0x28, 0xB5, 0x2F, 0xFD, 0x24, 0x01, 0x09, 0x00, 0x00, 0x61, 0x5B, 0x6E, 0x8C, 0xA9]
  else none

theorem refZstdWriter_used_le (z : RefZstdWriter) (input : List UInt8) (room : ℕ) (op : ZstdEnd) :
    (refZstdWriterStep refZstdFrame z input room op).used ≤ input.length := by
  unfold refZstdWriterStep
  split
  · exact Nat.zero_le _
  · split_ifs
    · split
      · exact le_rfl
      · exact Nat.zero_le _
    · exact le_rfl

theorem refZstdWriter_out_le (z : RefZstdWriter) (input : List UInt8) (room : ℕ) (op : ZstdEnd) :
    (refZstdWriterStep refZstdFrame z input room op).out.length ≤ room := by
  have hgive (taken owed : List UInt8) (used : ℕ) :
      (RefZstdWriter.give taken owed used room).out.length ≤ room := by
    unfold RefZstdWriter.give
    rw [List.length_take]
    exact Nat.min_le_left ..
  unfold refZstdWriterStep
  split
  · exact hgive ..
  · split_ifs
    · split
      · exact hgive ..
      · exact Nat.zero_le _
    · exact Nat.zero_le _

def refZstdWriter (c : Progressive UInt8) : Zstd where
  toFrameLib := refUnframe c .other
  createDCtx := some (⟨0, 0⟩ : RefUnframe)
  setWindowLogMax z _ := some z
  resetDCtx _ := some (⟨0, 0⟩ : RefUnframe)
  CCtx := RefZstdWriter
  createCCtx := some ⟨[], none⟩
  setLevel z _ := some z
  setChecksumFlag := some
  resetCCtx _ := some ⟨[], none⟩
  compress := refZstdWriterStep refZstdFrame
  compress_used_le := refZstdWriter_used_le
  compress_out_le := refZstdWriter_out_le

def RefZstdWriter.held (z : RefZstdWriter) : ℕ :=
  match z.owed with
  | some owed => owed.length
  | none => ((refZstdFrame z.taken).getD []).length

def RefZstdWriter.Live (z : RefZstdWriter) : Prop := ∀ owed, z.owed = some owed → owed ≠ []

end Zstd

/-! ## lz4-frame -/

section Lz4Frame

variable {F : Lz4f}

/-- The compressor of a frame fails for a reason of its own only when it has been told another size
than comes: it owes what it has been told and not yet been given. -/
structure Lz4f.EncoderMoves (F : Lz4f) where
  Live : F.Cctx → Prop
  Held : F.Cctx → ℕ
  Owes : F.Cctx → ℕ → Prop
  opening : ℕ
  begin_known : ∀ {z prefs code}, (F.begin z prefs).1 = .error code → code ≠ .other
  begin_ok : ∀ {z prefs header}, (F.begin z prefs).1 = .ok header →
    Live (F.begin z prefs).2 ∧ header.length + Held (F.begin z prefs).2 ≤ opening ∧
      ∀ n, Owes (F.begin z prefs).2 n → prefs.contentSize ≠ 0 ∧ n = prefs.contentSize
  update_known : ∀ {z x code}, Live z → x.length ≤ lz4fChunk → (F.update z x).1 = .error code →
    code ≠ .other
  update_ok : ∀ {z x bytes}, Live z → (F.update z x).1 = .ok bytes →
    Live (F.update z x).2 ∧ ∀ n, Owes (F.update z x).2 n → ∃ m, Owes z m ∧ n = m - x.length
  flush_known : ∀ {z code}, Live z → (F.flush z).1 = .error code → code ≠ .other
  flush_ok : ∀ {z bytes}, Live z → (F.flush z).1 = .ok bytes →
    Live (F.flush z).2 ∧ ∀ n, Owes (F.flush z).2 n → Owes z n
  finish_known : ∀ {z code}, Live z → (∀ n, Owes z n → n = 0) → (F.finish z).1 = .error code →
    code ≠ .other
  finish_ok : ∀ {z bytes}, Live z → (F.finish z).1 = .ok bytes → bytes.length ≤ Held z

/-- What the library may still write, besides what is staged. -/
def Lz4f.EncoderMoves.owed (D : F.EncoderMoves) (s : Lz4fEncoder F) : ℕ :=
  if s.ended then 0 else if s.started then D.Held s.cctx else D.opening

variable {D : F.EncoderMoves} {s : Lz4fEncoder F} {w : Window} {mode : Flush}

theorem lz4fError_isError (code : Lz4fError) : (lz4fError true code).isError = true := by
  cases code <;> rfl

end Lz4Frame

end Zukomp
