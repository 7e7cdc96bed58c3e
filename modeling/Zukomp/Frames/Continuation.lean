import Zukomp.Core.Types

/-! # Frame continuation, zu_frames.c

Whether another frame follows is decided from its four magic bytes: without consuming
them when all are visible, and holding them when more input may come. The probe asks a
library that moved nothing, with no room and no input, for a single byte.
-/

namespace Zukomp

inductive FrameState where
  | body | between | done
  deriving DecidableEq

inductive FramesKind where
  | zstd | lz4
  deriving DecidableEq

/-- `zu_int_frames`: `held` are the magic bytes consumed while undecided, and `owed` is the
byte the probe took from the library. -/
structure Frames where
  state : FrameState
  kind : FramesKind
  flags : UInt32
  held : List UInt8
  owed : Option UInt8
  deriving DecidableEq

def framesInit (kind : FramesKind) (flags : UInt32) : Frames :=
  { state := .body, kind := kind, flags := flags, held := [], owed := none }

def framesEnded (f : Frames) : Frames := { f with state := .between, held := [] }

def FramesKind.magic : FramesKind → List UInt8
  | .zstd => [0x28, 0xB5, 0x2F, 0xFD]
  | .lz4 => [0x04, 0x22, 0x4D, 0x18]

/-- A skippable frame's magic past its first byte, `0x5?`. -/
def skipTail : List UInt8 := [0x2A, 0x4D, 0x18]

/-- Whether `p`, at most four bytes, begins a magic that starts a frame here. -/
def framesIsPrefix (kind : FramesKind) : List UInt8 → Bool
  | [] => true
  | b :: rest => (b :: rest).isPrefixOf kind.magic || (b &&& 0xF0 == 0x50 && rest.isPrefixOf skipTail)

/-- Extend the held prefix a byte at a time: whether it still begins a magic, what is held
and how many bytes were consumed. The byte that disproves it is not. -/
def extendHeld (kind : FramesKind) (held : List UInt8) : List UInt8 → Bool × List UInt8 × ℕ
  | [] => (true, held, 0)
  | b :: rest =>
    if held.length < 4 then
      if framesIsPrefix kind (held ++ [b]) then
        match extendHeld kind (held ++ [b]) rest with
        | (ok, held', n) => (ok, held', n + 1)
      else (false, held, 0)
    else (true, held, 0)

variable {σ : Type}

/-- Between frames: `ok` means that a new frame begins, anything else is returned. `feed`
hands the library bytes that the prober has consumed. -/
def framesBetween (feed : σ → List UInt8 → Status × σ) (f : Frames) (z : σ) (w : Window)
    (mode : Flush) : Status × Frames × σ × Window :=
  match f.state with
  | .done => (.streamEnd, f, z, w)
  | .body => (.ok, f, z, w)
  | .between =>
    if f.flags &&& decConcatMembers = 0 then (.streamEnd, { f with state := .done }, z, w)
    else if f.held = [] then
      if w.input = [] then
        if mode ≠ .finish then (.needInput, f, z, w)
        else (.streamEnd, { f with state := .done }, z, w)
      else
        let p := w.input.take 4
        if framesIsPrefix f.kind p = false then (.streamEnd, { f with state := .done }, z, w)
        -- confirmed and unconsumed: the library reads the magic itself
        else if p.length = 4 then (.ok, { f with state := .body }, z, w)
        else if mode = .finish then (.streamEnd, { f with state := .done }, z, w)
        else (.needInput, { f with held := p }, z, w.take p.length)
    else
      match extendHeld f.kind f.held w.input with
      | (false, _, n) => (.streamEnd, { f with held := [], state := .done }, z, w.take n)
      | (true, held, n) =>
        if held.length = 4 then
          match feed z held with
          | (.ok, z) => (.ok, { f with held := [], state := .body }, z, w.take n)
          | (st, z) => (st, { f with held := [] }, z, w.take n)
        else if mode ≠ .finish then (.needInput, { f with held := held }, z, w.take n)
        -- the cursor can no longer express the held bytes, so the policy is applied here
        else (if f.flags &&& decRejectTrailing ≠ 0 then .errTrailing else .streamEnd,
          { f with held := [], state := .done }, z, w.take n)

/-- What the probe learns: the byte, if the library wrote one, and whether the frame ended. -/
structure Probe (σ : Type) where
  status : Status
  state : σ
  byte : Option UInt8
  ended : Bool

/-- The library took no input and wrote no output. With neither input nor room under
`ZU_FINISH` only the probe can tell why; `ok` means that the frame ended. -/
def framesStalled (probe : σ → Probe σ) (f : Frames) (z : σ) (availIn availOut : ℕ)
    (mode : Flush) : Status × Frames × σ :=
  if availOut = 0 then
    if 0 < availIn then (.needOutput, f, z)
    else if mode ≠ .finish then (.needInput, f, z)
    else
      let r := probe z
      if r.status ≠ .ok then (r.status, f, r.state)
      else
        let f := if r.ended then framesEnded f else f
        match r.byte with
        | some b => (.needOutput, { f with owed := some b }, r.state)
        | none => (if r.ended then .ok else .errTruncated, f, r.state)
  else if availIn = 0 then (if mode = .finish then .errTruncated else .needInput, f, z)
  else (.errInternal, f, z)

/-- Deliver the owed byte; `none` when there is no room for it. -/
def framesPay (f : Frames) (w : Window) : Option (Frames × Window) :=
  match f.owed with
  | none => some (f, w)
  | some b => if w.room = 0 then none else some ({ f with owed := none }, w.put [b])

/-! ## Prefixes of a magic -/

variable {kind : FramesKind}

theorem framesIsPrefix_mono {p q : List UInt8} (h : p <+: q)
    (hq : framesIsPrefix kind q = true) : framesIsPrefix kind p = true := by
  obtain ⟨t, rfl⟩ := h
  cases p with
  | nil => rfl
  | cons b rest =>
    simp only [List.cons_append, framesIsPrefix, Bool.or_eq_true, Bool.and_eq_true,
      List.isPrefixOf_iff_prefix] at hq ⊢
    rcases hq with hown | ⟨hskip, htail⟩
    · exact .inl ((List.prefix_append (b :: rest) t).trans hown)
    · exact .inr ⟨hskip, (List.prefix_append rest t).trans htail⟩

/-- As long as no byte disproves the prefix, four bytes are held or all input is. -/
theorem extendHeld_eq {held input : List UInt8}
    (h : framesIsPrefix kind (held ++ input.take (4 - held.length)) = true) :
    extendHeld kind held input =
      (true, held ++ input.take (4 - held.length), min (4 - held.length) input.length) := by
  induction input generalizing held with
  | nil => simp [extendHeld]
  | cons b rest ih =>
    unfold extendHeld
    by_cases hlt : held.length < 4
    · obtain ⟨k, hk⟩ : ∃ k, 4 - held.length = k + 1 := ⟨3 - held.length, by omega⟩
      rw [hk, List.take_succ_cons] at h ⊢
      have hlen : 4 - (held ++ [b]).length = k := by
        rw [List.length_append, List.length_singleton]
        omega
      have happ : held ++ b :: rest.take k = (held ++ [b]) ++ rest.take k := by simp
      rw [happ] at h
      rw [if_pos hlt, if_pos (framesIsPrefix_mono (List.prefix_append ..) h),
        ih (by rw [hlen]; exact h), hlen, happ]
      simp
    · have hzero : 4 - held.length = 0 := by omega
      rw [if_neg hlt, hzero]
      simp

end Zukomp
