import Zukomp.Block.Sending
import Zukomp.Frames.Lz4f

/-! # The lz4-frame encoder as a writer of one frame

A `FrameWriter` makes one library call at a time, delivers what the call gave and only then makes
the next. The encoder of codec_lz4.c refines it through any calls of `zu_encoder_process`. With
that, neither lz4 encoder's bytes depend on the windows it is shown.
-/

namespace Zukomp

open Library

variable {F : Lz4f}

/-! ## Calls of the library -/

inductive Lz4fCall where
  | begin (prefs : Lz4fPrefs)
  | update (x : List UInt8)
  | flush
  | finish
  deriving DecidableEq

def Lz4fCall.payload : Lz4fCall → List UInt8
  | .update x => x
  | _ => []

/-- A call between the frame's header and its end mark. -/
def Lz4fCall.Inner (c : Lz4fCall) : Prop := (∃ x, c = .update x) ∨ c = .flush

def Lz4f.call (F : Lz4f) (z : F.Cctx) : Lz4fCall → Except Lz4fError (List UInt8) × F.Cctx
  | .begin prefs => F.begin z prefs
  | .update x => F.update z x
  | .flush => F.flush z
  | .finish => F.finish z

/-- If the frame has still to begin, liblz4 has the memory for it. -/
def Lz4fEncoder.Begins (s : Lz4fEncoder F) (w : Window) (mode : Flush) : Prop :=
  s.started = false → ∃ header z, F.begin s.cctx (lz4fBeginPrefs s w mode) = (.ok header, z)

/-- The calls that succeeded, with what they gave. -/
abbrev Lz4fLog := List (Lz4fCall × List UInt8)

namespace Lz4fLog

def outputs (log : Lz4fLog) : List UInt8 := (log.map Prod.snd).flatten

def payload (log : Lz4fLog) : List UInt8 := (log.map fun c => c.1.payload).flatten

/-- A frame with its header and no end mark yet. -/
def Open (prefs : Lz4fPrefs) (log : Lz4fLog) : Prop :=
  ∃ header inner, log = (.begin prefs, header) :: inner ∧ ∀ c ∈ inner, c.1.Inner

/-- A frame from its header to its end mark. -/
def Whole (prefs : Lz4fPrefs) (log : Lz4fLog) : Prop :=
  ∃ log' tail, log = log' ++ [(.finish, tail)] ∧ Open prefs log'

def Unflushed (log : Lz4fLog) : Prop := ∀ c ∈ log, c.1 ≠ .flush

@[simp] theorem outputs_nil : outputs [] = [] := rfl

@[simp] theorem outputs_snoc (log : Lz4fLog) (c : Lz4fCall) (bytes : List UInt8) :
    outputs (log ++ [(c, bytes)]) = outputs log ++ bytes := by
  simp [outputs]

@[simp] theorem payload_nil : payload [] = [] := rfl

@[simp] theorem payload_snoc (log : Lz4fLog) (c : Lz4fCall) (bytes : List UInt8) :
    payload (log ++ [(c, bytes)]) = payload log ++ c.payload := by
  simp [payload]

theorem open_begin (prefs : Lz4fPrefs) (header : List UInt8) :
    Open prefs ([] ++ [(.begin prefs, header)]) :=
  ⟨header, [], rfl, by simp⟩

theorem Open.snoc {prefs : Lz4fPrefs} {log : Lz4fLog} (h : Open prefs log) {c : Lz4fCall}
    (hc : c.Inner) (bytes : List UInt8) : Open prefs (log ++ [(c, bytes)]) := by
  obtain ⟨header, inner, rfl, hinner⟩ := h
  refine ⟨header, inner ++ [(c, bytes)], rfl, fun d hd => ?_⟩
  rcases List.mem_append.mp hd with hd | hd
  · exact hinner d hd
  · rw [List.mem_singleton.mp hd]
    exact hc

theorem Unflushed.snoc {log : Lz4fLog} (h : Unflushed log) {c : Lz4fCall} (hc : c ≠ .flush)
    (bytes : List UInt8) : Unflushed (log ++ [(c, bytes)]) := by
  intro d hd
  rcases List.mem_append.mp hd with hd | hd
  · exact h d hd
  · rw [List.mem_singleton.mp hd]
    exact hc

end Lz4fLog

/-! ## The writer -/

/-- `stage` is what the last call gave and the caller has not been given yet. -/
structure FrameWriter (F : Lz4f) where
  cctx : F.Cctx
  log : Lz4fLog
  stage : List UInt8
  given : List UInt8

namespace FrameWriter

def start (z : F.Cctx) : FrameWriter F := ⟨z, [], [], []⟩

inductive Step : FrameWriter F → FrameWriter F → Prop
  | deliver (W : FrameWriter F) (n : ℕ) :
    Step W { W with stage := W.stage.drop n, given := W.given ++ W.stage.take n }
  | call {W : FrameWriter F} {c : Lz4fCall} {bytes : List UInt8} {z : F.Cctx}
    (hstage : W.stage = []) (hcall : F.call W.cctx c = (.ok bytes, z)) :
    Step W { W with cctx := z, log := W.log ++ [(c, bytes)], stage := bytes }
  | failed {W : FrameWriter F} {c : Lz4fCall} {code : Lz4fError} {z : F.Cctx}
    (hstage : W.stage = []) (hcall : F.call W.cctx c = (.error code, z)) :
    Step W { W with cctx := z }

abbrev Steps : FrameWriter F → FrameWriter F → Prop := Relation.ReflTransGen Step

/-- Nothing is dropped or repeated: what has been given and what is staged are the outputs. -/
def Exact (W : FrameWriter F) : Prop := W.given ++ W.stage = W.log.outputs

theorem Step.exact {W W' : FrameWriter F} (h : Step W W') (hW : W.Exact) : W'.Exact := by
  cases h with
  | deliver n =>
    change (W.given ++ W.stage.take n) ++ W.stage.drop n = W.log.outputs
    rw [List.append_assoc, List.take_append_drop]
    exact hW
  | @call c bytes z hstage _ =>
    change W.given ++ bytes = Lz4fLog.outputs (W.log ++ [(c, bytes)])
    rw [Lz4fLog.outputs_snoc, ← hW, hstage, List.append_nil]
  | failed _ _ => exact hW

theorem Steps.exact {W W' : FrameWriter F} (h : Steps W W') (hW : W.Exact) : W'.Exact := by
  induction h with
  | refl => exact hW
  | tail _ hstep ih => exact hstep.exact ih

end FrameWriter

/-! ## The encoder refines the writer -/

/-- How the encoder's flags read the log. -/
inductive Lz4fLogged (s : Lz4fEncoder F) (log : Lz4fLog) : Prop
  | fresh (hlog : log = []) (hstarted : s.started = false) (hended : s.ended = false)
  | begun (hlog : log.Open s.prefs) (hstarted : s.started = true) (hended : s.ended = false)
  | ended (hlog : log.Whole s.prefs) (hstarted : s.started = true) (hended : s.ended = true)

theorem Lz4fLogged.congr {s t : Lz4fEncoder F} {log : Lz4fLog} (h : Lz4fLogged s log)
    (hprefs : t.prefs = s.prefs) (hstarted : t.started = s.started) (hended : t.ended = s.ended) :
    Lz4fLogged t log := by
  cases h with
  | fresh hlog hst hend => exact .fresh hlog (hstarted.trans hst) (hended.trans hend)
  | begun hlog hst hend => exact .begun (hprefs ▸ hlog) (hstarted.trans hst) (hended.trans hend)
  | ended hlog hst hend => exact .ended (hprefs ▸ hlog) (hstarted.trans hst) (hended.trans hend)

/-- The encoder `s` stands where the writer `W` does. -/
structure Lz4fWritten (s : Lz4fEncoder F) (W : FrameWriter F) : Prop where
  cctx : W.cctx = s.cctx
  stage : W.stage = s.stage
  logged : Lz4fLogged s W.log
  done : s.done = true → s.ended = true

/-- Within a call that found the encoder at `s₀` and the window at `w₀`: the writer has gone from
`W₀` to `W`, reading `u` bytes and giving `o`. -/
structure Lz4fWriting (mode : Flush) (s₀ : Lz4fEncoder F) (w₀ : Window) (W₀ : FrameWriter F)
    (s : Lz4fEncoder F) (w : Window) (W : FrameWriter F) (u : ℕ) (o : List UInt8) : Prop where
  steps : W₀.Steps W
  written : Lz4fWritten s W
  given : W.given = W₀.given ++ o
  payload : W.log.payload = W₀.log.payload ++ w₀.input.take u
  moved : w₀.Moved u o w
  prefs : s.prefs = s₀.prefs ∨
    s₀.started = false ∧ mode = .finish ∧ s.prefs.contentSize = w₀.input.length
  fresh : s.started = false →
    s₀.started = false ∧ s.prefs = s₀.prefs ∧ s.cctx = s₀.cctx ∧ u = 0
  ended : s.ended = true → s₀.ended = true ∧ u = 0 ∨ mode = .finish ∧ u = w₀.input.length
  flushed : mode ≠ .flush → W₀.log.Unflushed → W.log.Unflushed

namespace Lz4fWriting

variable {mode : Flush} {s₀ s : Lz4fEncoder F} {w₀ w : Window} {W₀ W : FrameWriter F} {u : ℕ}
  {o : List UInt8}

theorem start (h : Lz4fWritten s₀ W₀) : Lz4fWriting mode s₀ w₀ W₀ s₀ w₀ W₀ 0 [] where
  steps := .refl
  written := h
  given := by simp
  payload := by simp
  moved := .refl w₀
  prefs := .inl rfl
  fresh hs := ⟨hs, rfl, rfl, rfl⟩
  ended hs := .inl ⟨hs, rfl⟩
  flushed _ hs := hs

theorem drained (h : Lz4fWriting mode s₀ w₀ W₀ s w W u o) :
    ∃ W', Lz4fWriting mode s₀ w₀ W₀ { s with stage := (lz4Drain s.stage w).1 }
      (lz4Drain s.stage w).2 W' u (o ++ s.stage.take w.room) := by
  refine ⟨_, h.steps.tail (.deliver W w.room), ⟨h.written.cctx, ?_,
    h.written.logged.congr rfl rfl rfl, h.written.done⟩, ?_, h.payload, ?_, h.prefs, h.fresh,
    h.ended, h.flushed⟩
  · exact congrArg (List.drop w.room) h.written.stage
  · change W.given ++ W.stage.take w.room = _
    rw [h.given, h.written.stage, List.append_assoc]
  · have hput : w.Moved 0 (s.stage.take w.room) (w.put (s.stage.take w.room)) :=
      .put (by rw [List.length_take]; exact Nat.min_le_left _ _)
    exact h.moved.trans hput

theorem called (h : Lz4fWriting mode s₀ w₀ W₀ s w W u o) {c : Lz4fCall} {bytes : List UInt8}
    {t : Lz4fEncoder F} {n : ℕ} (hstage : s.stage = [])
    (hc : F.call s.cctx c = (.ok bytes, t.cctx)) (hbytes : t.stage = bytes)
    (hn : n ≤ w.input.length) (hpayload : c.payload = w.input.take n)
    (hlogged : Lz4fLogged t (W.log ++ [(c, bytes)])) (hdone : t.done = true → t.ended = true)
    (hprefs : t.prefs = s₀.prefs ∨
      s₀.started = false ∧ mode = .finish ∧ t.prefs.contentSize = w₀.input.length)
    (hstarted : t.started = true)
    (hended : t.ended = true → s₀.ended = true ∧ u + n = 0 ∨
      mode = .finish ∧ u + n = w₀.input.length)
    (hflush : c = .flush → mode = .flush) :
    ∃ W', Lz4fWriting mode s₀ w₀ W₀ t (w.take n) W' (u + n) o := by
  have hstep : W.Step { W with cctx := t.cctx, log := W.log ++ [(c, bytes)], stage := bytes } :=
    .call (h.written.stage.trans hstage) (by rw [h.written.cctx, hc])
  have hmoved : w₀.Moved (u + n) (o ++ []) (w.take n) := h.moved.trans (.take hn)
  rw [List.append_nil] at hmoved
  refine ⟨_, h.steps.tail hstep, ⟨rfl, hbytes.symm, hlogged, hdone⟩, h.given, ?_, hmoved, hprefs,
    fun hs => absurd hs (by simp [hstarted]), hended,
    fun hmode hlog => (h.flushed hmode hlog).snoc (fun hc => hmode (hflush hc)) bytes⟩
  have hinput : w.input = w₀.input.drop u := by
    obtain ⟨-, -, rfl⟩ := h.moved
    rfl
  change Lz4fLog.payload (W.log ++ [(c, bytes)]) = _
  rw [Lz4fLog.payload_snoc, h.payload, hpayload, hinput, List.append_assoc, ← List.take_add]

theorem failed (h : Lz4fWriting mode s₀ w₀ W₀ s w W u o) (hstarted : s.started = true)
    {c : Lz4fCall} {code : Lz4fError} {z : F.Cctx} (hstage : s.stage = [])
    (hc : F.call s.cctx c = (.error code, z)) :
    ∃ W', Lz4fWriting mode s₀ w₀ W₀ { s with cctx := z } w W' u o := by
  have hstep : W.Step { W with cctx := z } :=
    .failed (h.written.stage.trans hstage) (by rw [h.written.cctx, hc])
  exact ⟨_, h.steps.tail hstep, ⟨rfl, h.written.stage, h.written.logged.congr rfl rfl rfl,
    h.written.done⟩, h.given, h.payload, h.moved, h.prefs,
    fun hs => absurd hs (by simp [hstarted]), h.ended, h.flushed⟩

theorem opened (h : Lz4fWriting mode s₀ w₀ W₀ s w W u o) (hstarted : s.started = true)
    (hended : s.ended = false) : W.log.Open s.prefs := by
  rcases h.written.logged with ⟨-, hst, -⟩ | ⟨hlog, -, -⟩ | ⟨-, -, hend⟩
  · exact absurd hst (by simp [hstarted])
  · exact hlog
  · exact absurd hend (by simp [hended])

theorem inner (h : Lz4fWriting mode s₀ w₀ W₀ s w W u o) (hstarted : s.started = true)
    (hended : s.ended = false) {c : Lz4fCall} (hcall : c.Inner) {bytes : List UInt8} {z : F.Cctx}
    {n : ℕ} (hstage : s.stage = []) (hc : F.call s.cctx c = (.ok bytes, z))
    (hn : n ≤ w.input.length) (hpayload : c.payload = w.input.take n)
    (hflush : c = .flush → mode = .flush) :
    ∃ W', Lz4fWriting mode s₀ w₀ W₀ { s with cctx := z, stage := bytes } (w.take n) W'
      (u + n) o := by
  have hlog := h.opened hstarted hended
  exact h.called hstage hc rfl hn hpayload (.begun (hlog.snoc hcall bytes) hstarted hended)
    h.written.done h.prefs hstarted (fun hs => absurd hs (by simp [hended])) hflush

end Lz4fWriting

/-- What a call returns, and why. -/
inductive Lz4fAnswer (mode : Flush) : Status × Lz4fEncoder F × Window → Prop
  | full {s : Lz4fEncoder F} {w : Window} (hstage : s.stage ≠ []) (hroom : w.room = 0) :
    Lz4fAnswer mode (.needOutput, s, w)
  | ended {s : Lz4fEncoder F} {w : Window} (hended : s.ended = true) (hstage : s.stage = []) :
    Lz4fAnswer mode (.streamEnd, s, w)
  | hungry {s : Lz4fEncoder F} {w : Window} (hmode : mode ≠ .finish) (hinput : w.input = [])
    (hstage : s.stage = []) : Lz4fAnswer mode (.needInput, s, w)
  | failed (s : Lz4fEncoder F) (w : Window) (code : Lz4fError) :
    Lz4fAnswer mode (lz4fError true code, s, w)

theorem Lz4fAnswer.streamEnd {mode : Flush} {r : Status × Lz4fEncoder F × Window}
    (h : Lz4fAnswer mode r) (hst : r.1 = .streamEnd) : r.2.1.ended = true ∧ r.2.1.stage = [] := by
  cases h with
  | ended hended hstage => exact ⟨hended, hstage⟩
  | failed s w code => cases code <;> simp [lz4fError] at hst
  | _ => simp at hst

/-- Within a call, some writer has followed it. -/
def Lz4fFollows (mode : Flush) (s₀ : Lz4fEncoder F) (w₀ : Window) (W₀ : FrameWriter F)
    (s : Lz4fEncoder F) (w : Window) : Prop :=
  ∃ u o W, Lz4fWriting mode s₀ w₀ W₀ s w W u o

/-- How a call ends: some writer has followed it, or the frame could not begin. -/
inductive Lz4fOutcome (mode : Flush) (s₀ : Lz4fEncoder F) (w₀ : Window) (W₀ : FrameWriter F) :
    Status × Lz4fEncoder F × Window → Prop
  | followed {r : Status × Lz4fEncoder F × Window}
    (follows : Lz4fFollows mode s₀ w₀ W₀ r.2.1 r.2.2) (answer : Lz4fAnswer mode r) :
    Lz4fOutcome mode s₀ w₀ W₀ r
  | unbegun (never : ¬ s₀.Begins w₀ mode) (s : Lz4fEncoder F) {w : Window} {u : ℕ}
    {o : List UInt8} (moved : w₀.Moved u o w) (code : Lz4fError) :
    Lz4fOutcome mode s₀ w₀ W₀ (lz4fError true code, s, w)

def lz4fCallsLeft (x : (Lz4fEncoder F × Bool) × Window) : ℕ :=
  x.2.input.length + (if x.1.1.started then 0 else 1) + (if x.1.1.ended then 0 else 1) +
    (if x.1.2 then 0 else 1)

/-- One turn of the loop. -/
theorem lz4fEncoderStep_writes {mode : Flush} {s₀ : Lz4fEncoder F} {w₀ : Window}
    {W₀ : FrameWriter F} {x : (Lz4fEncoder F × Bool) × Window}
    (hx : Lz4fFollows mode s₀ w₀ W₀ x.1.1 x.2) :
    Turn (fun y => Lz4fFollows mode s₀ w₀ W₀ y.1.1 y.2 ∧ lz4fCallsLeft y < lz4fCallsLeft x)
      (Lz4fOutcome mode s₀ w₀ W₀) (lz4fEncoderStep mode x) := by
  obtain ⟨⟨s, flushed⟩, w⟩ := x
  obtain ⟨u, o, W, h⟩ := hx
  obtain ⟨W, h⟩ := h.drained
  have hroom : (lz4Drain s.stage w).1 ≠ [] → (lz4Drain s.stage w).2.room = 0 := by
    intro hne
    have hlt : w.room < s.stage.length := Nat.lt_of_not_le fun hle =>
      hne (List.drop_eq_nil_of_le hle)
    change w.room - (s.stage.take w.room).length = 0
    rw [List.length_take]
    omega
  have hinput : (lz4Drain s.stage w).2.input = w.input := rfl
  obtain ⟨m, hm⟩ : ∃ m, lz4fCallsLeft ((s, flushed), w) = m := ⟨_, rfl⟩
  rw [hm]
  unfold lz4fCallsLeft at hm
  unfold lz4fEncoderStep
  dsimp only at h hm ⊢
  rw [← hinput] at hm
  generalize o ++ s.stage.take w.room = o at h
  generalize (lz4Drain s.stage w).1 = stage, (lz4Drain s.stage w).2 = w at h hroom hm ⊢
  by_cases hstage : stage = []
  swap
  · rw [if_pos hstage]
    exact .followed ⟨u, o, W, h⟩ (.full hstage (hroom hstage))
  rw [if_neg (by simpa using hstage)]
  by_cases hdone : s.done = true
  · rw [if_pos hdone]
    exact .followed ⟨u, o, W, h⟩ (.ended (h.written.done hdone) hstage)
  rw [if_neg hdone]
  by_cases hended : s.ended = true
  · rw [if_pos hended]
    have hwritten : Lz4fWritten { s with stage := stage, done := true } W :=
      ⟨h.written.cctx, h.written.stage, h.written.logged.congr rfl rfl rfl, fun _ => hended⟩
    exact .followed ⟨u, o, W, { h with written := hwritten }⟩ (.ended hended hstage)
  rw [if_neg hended]
  have hended : s.ended = false := by simpa using hended
  by_cases hstarted : s.started = true
  swap
  · have hstarted : s.started = false := by simpa using hstarted
    rw [if_pos hstarted]
    obtain ⟨hstarted₀, hprefs, hcctx, rfl⟩ := h.fresh hstarted
    have hlog : W.log = [] := by
      rcases h.written.logged with ⟨hlog, -, -⟩ | ⟨-, hst, -⟩ | ⟨-, hst, -⟩
      · exact hlog
      · exact absurd hst (by simp [hstarted])
      · exact absurd hst (by simp [hstarted])
    have hinput : w.input = w₀.input := by
      obtain ⟨-, -, rfl⟩ := h.moved
      rfl
    generalize hp : lz4fBeginPrefs _ w mode = prefs
    have hp₀ : lz4fBeginPrefs s₀ w₀ mode = prefs := by
      rw [← hp, lz4fBeginPrefs, lz4fBeginPrefs, hinput]
      dsimp only
      rw [hprefs]
    cases hz : F.begin s.cctx prefs with
    | mk r z =>
    cases r with
    | error code =>
      refine .unbegun (fun hbegins => ?_) _ h.moved code
      obtain ⟨header, z', hok⟩ := hbegins hstarted₀
      rw [← hcctx, hp₀, hz] at hok
      cases hok
    | ok header =>
      refine ⟨⟨_, o, h.called (n := 0) (c := .begin prefs)
        (t := { s with cctx := z, prefs := prefs, started := true, stage := header }) hstage hz rfl
        (Nat.zero_le _) rfl ?_ h.written.done ?_ rfl (fun hs => absurd hs (by simp [hended]))
        (by simp)⟩, ?_⟩
      rotate_left 2
      · rw [← hm]
        simp [lz4fCallsLeft, hstarted]
      · rw [hlog]
        exact .begun (Lz4fLog.open_begin prefs header) rfl hended
      · change prefs = s₀.prefs ∨ _ ∧ _ ∧ prefs.contentSize = _
        rw [← hp, lz4fBeginPrefs]
        by_cases hfinish : mode = .finish
        · rw [if_pos hfinish, hinput]
          exact .inr ⟨hstarted₀, hfinish, rfl⟩
        · rw [if_neg hfinish]
          exact .inl hprefs
  rw [if_neg (by simp [hstarted])]
  by_cases hinput : w.input = []
  swap
  · rw [if_pos hinput]
    have hpos : 0 < min w.input.length lz4fChunk :=
      Nat.lt_min.mpr ⟨List.length_pos_of_ne_nil hinput, by norm_num [lz4fChunk]⟩
    cases hr : F.update s.cctx (w.input.take (min w.input.length lz4fChunk)) with
    | mk r z =>
      cases r with
      | error code =>
        exact .followed ⟨u, o, h.failed hstarted hstage (c := .update _) hr⟩ (.failed _ _ code)
      | ok bytes =>
        refine ⟨⟨_, o, h.inner hstarted hended (.inl ⟨_, rfl⟩) hstage (c := .update _) hr
          (Nat.min_le_left _ _) rfl (by simp)⟩, ?_⟩
        rw [← hm, lz4fCallsLeft]
        dsimp only
        rw [Window.take_input, List.length_drop]
        have := Nat.min_le_left w.input.length lz4fChunk
        omega
  rw [if_neg (by simpa using hinput)]
  by_cases hfinish : mode = .finish
  · rw [if_pos hfinish]
    cases hr : F.finish s.cctx with
    | mk r z =>
      cases r with
      | error code =>
        exact .followed ⟨u, o, h.failed hstarted hstage (c := .finish) hr⟩ (.failed _ _ code)
      | ok bytes =>
        have hu : u = w₀.input.length := by
          obtain ⟨hu, -, rfl⟩ := h.moved
          have := List.drop_eq_nil_iff.mp hinput
          omega
        refine ⟨⟨_, o, h.called (n := 0) (c := .finish)
          (t := { s with cctx := z, ended := true, stage := bytes }) hstage hr rfl (Nat.zero_le _)
          rfl (.ended ⟨_, bytes, rfl, h.opened hstarted hended⟩ hstarted rfl) (fun _ => rfl) h.prefs
          hstarted (fun _ => .inr ⟨hfinish, hu⟩) (by simp)⟩, ?_⟩
        rw [← hm]
        simp [lz4fCallsLeft, hended, hinput]
  rw [if_neg hfinish]
  by_cases hflush : mode = .flush ∧ flushed = false
  · rw [if_pos hflush]
    cases hr : F.flush s.cctx with
    | mk r z =>
      cases r with
      | error code =>
        exact .followed ⟨u, o, h.failed hstarted hstage (c := .flush) hr⟩ (.failed _ _ code)
      | ok bytes =>
        refine ⟨⟨_, o, h.inner hstarted hended (.inr rfl) hstage (c := .flush) hr (n := 0)
          (Nat.zero_le _) rfl fun _ => hflush.1⟩, ?_⟩
        rw [← hm]
        simp [lz4fCallsLeft, hflush.2]
  · rw [if_neg hflush]
    exact .followed ⟨u, o, W, h⟩ (.hungry hfinish hinput hstage)

theorem lz4fEncoderProcess_outcome {s₀ : Lz4fEncoder F} {W₀ : FrameWriter F}
    (h : Lz4fWritten s₀ W₀) (w₀ : Window) (mode : Flush) :
    Lz4fOutcome mode s₀ w₀ W₀ (lz4fEncoderProcess s₀ w₀ mode) := by
  have hstart : Lz4fFollows mode s₀ w₀ W₀ s₀ w₀ := ⟨0, [], W₀, .start h⟩
  refine runLoop_rule (s := ((s₀, false), w₀)) (fun x => Lz4fFollows mode s₀ w₀ W₀ x.1.1 x.2)
    (Lz4fOutcome mode s₀ w₀ W₀) lz4fCallsLeft (fun _ hx => lz4fEncoderStep_writes hx) hstart ?_
  unfold lz4fCallsLeft
  dsimp only
  split_ifs <;> omega

theorem lz4fEncoderProcess_writes {s₀ : Lz4fEncoder F} {W₀ : FrameWriter F}
    (h : Lz4fWritten s₀ W₀) {w₀ : Window} {mode : Flush} (hbegins : s₀.Begins w₀ mode) :
    Lz4fFollows mode s₀ w₀ W₀ (lz4fEncoderProcess s₀ w₀ mode).2.1
        (lz4fEncoderProcess s₀ w₀ mode).2.2 ∧
      Lz4fAnswer mode (lz4fEncoderProcess s₀ w₀ mode) := by
  have houtcome := lz4fEncoderProcess_outcome h w₀ mode
  generalize lz4fEncoderProcess s₀ w₀ mode = r at houtcome ⊢
  cases houtcome with
  | followed follows answer => exact ⟨follows, answer⟩
  | unbegun never => exact absurd hbegins never

/-! ## Sessions -/

/-- A call for which liblz4 can begin the frame, if it asks it to. -/
def Lz4fBegins (e : Encoder (lz4FrameCodec F)) (buf : Buffer) (mode : Flush) : Prop :=
  checkBuffer buf = .ok → Lz4fEncoder.Begins (F := F) e.state buf.window mode

/-- A session of calls and the writer that has followed it. -/
structure Lz4fFollowed (s : Encoding (lz4FrameCodec F)) (W : FrameWriter F) : Prop where
  written : Lz4fWritten (F := F) s.enc.state W
  given : W.given = s.given
  payload : W.log.payload = s.taken
  finished : s.enc.finished = true →
    Lz4fEncoder.ended (F := F) s.enc.state = true ∧ Lz4fEncoder.stage (F := F) s.enc.state = []

/-- What one call of a session does to the header and to the frame's end. -/
structure Lz4fAdvanced (s₀ s : Lz4fEncoder F) (taken₀ taken unread : List UInt8) (mode : Flush) :
    Prop where
  prefs : s.prefs = s₀.prefs ∨
    s₀.started = false ∧ mode = .finish ∧ s.prefs.contentSize = unread.length
  ended : s.ended = true →
    s₀.ended = true ∧ taken = taken₀ ∨ mode = .finish ∧ taken = taken₀ ++ unread

theorem Lz4fFollowed.next {s : Encoding (lz4FrameCodec F)} {W : FrameWriter F}
    (h : Lz4fFollowed s W) {buf : Buffer} {mode : Flush} (hbegins : Lz4fBegins s.enc buf mode) :
    ∃ W', W.Steps W' ∧ Lz4fFollowed (s.next buf mode) W' ∧
      Lz4fAdvanced (F := F) s.enc.state (s.next buf mode).enc.state s.taken (s.next buf mode).taken
        buf.unread mode := by
  have hv : (lz4FrameCodec F).encoderProcess = onBuffer lz4fEncoderProcess := rfl
  have hsame (hsame : s.next buf mode = s) : ∃ W', W.Steps W' ∧ Lz4fFollowed (s.next buf mode) W' ∧
      Lz4fAdvanced (F := F) s.enc.state (s.next buf mode).enc.state s.taken (s.next buf mode).taken
        buf.unread mode := by
    rw [hsame]
    exact ⟨W, .refl, h, .inl rfl, fun hend => .inl ⟨hend, rfl⟩⟩
  by_cases hbuf : checkBuffer buf = .ok
  swap
  · exact hsame (Encoding.next_of_bad hbuf mode)
  rcases Encoding.next_cases hv s buf mode with ⟨hnext, -⟩ | ⟨hfin, hcall⟩
  · exact hsame hnext
  · obtain ⟨⟨u, o, W', hW'⟩, hanswer⟩ := lz4fEncoderProcess_writes h.written (hbegins hbuf)
    obtain ⟨hu, -, hmove⟩ := hW'.moved
    obtain ⟨hnext, -⟩ := hcall _ _ u o (Prod.ext rfl (Prod.ext rfl hmove))
    rw [hnext]
    refine ⟨W', hW'.steps, ⟨hW'.written, ?_, ?_, fun hst => hanswer.streamEnd (beq_iff_eq.mp hst)⟩, hW'.prefs,
      fun hst => ?_⟩
    · rw [hW'.given, h.given]
    · rw [hW'.payload, h.payload]
      rfl
    · rcases hW'.ended hst with ⟨hend₀, rfl⟩ | ⟨hfinish, rfl⟩
      · exact .inl ⟨hend₀, by simp⟩
      · refine .inr ⟨hfinish, ?_⟩
        change s.taken ++ buf.unread.take buf.unread.length = _
        rw [List.take_length]

theorem lz4fEncoder_fresh {lookup : CodecId → Option CodecVtable} {opts : EncoderOpts}
    {e : Encoder (lz4FrameCodec F)} (hnew : encoderNew lookup opts = .ok ⟨lz4FrameCodec F, e⟩) :
    e.finished = false ∧ ∃ z level, e.state = (⟨z, level, lz4fPrefs level, false, false, false, []⟩ :
      Lz4fEncoder F) := by
  obtain ⟨-, hstate, hfin⟩ := encoderNew_ok hnew
  have hstate : lz4fEncoderNew F e.opts = .ok e.state := hstate
  unfold lz4fEncoderNew at hstate
  split at hstate
  · cases hstate
  · exact ⟨hfin, _, _, (Except.ok.inj hstate).symm⟩

theorem lz4fFollowed_start {lookup : CodecId → Option CodecVtable} {opts : EncoderOpts}
    {e : Encoder (lz4FrameCodec F)} (hnew : encoderNew lookup opts = .ok ⟨lz4FrameCodec F, e⟩) :
    Lz4fFollowed (Encoding.start e)
      (FrameWriter.start (Lz4fEncoder.cctx (F := F) e.state)) := by
  obtain ⟨hfin, z, level, hstate⟩ := lz4fEncoder_fresh hnew
  refine ⟨⟨rfl, ?_, ?_, ?_⟩, rfl, rfl, fun hst => absurd hst (by simp [Encoding.start, hfin])⟩
  · change [] = Lz4fEncoder.stage (F := F) e.state
    rw [hstate]
  · change Lz4fLogged (F := F) e.state []
    rw [hstate]
    exact .fresh rfl rfl rfl
  · change Lz4fEncoder.done (F := F) e.state = true → _
    rw [hstate]
    simp

/-- The encoder's whole history is that of a writer. -/
theorem lz4fRun_followed {lookup : CodecId → Option CodecVtable} {opts : EncoderOpts}
    {e : Encoder (lz4FrameCodec F)} (hnew : encoderNew lookup opts = .ok ⟨lz4FrameCodec F, e⟩)
    {s : Encoding (lz4FrameCodec F)} (hrun : Encoding.RunBy Lz4fBegins e s) :
    ∃ W, (FrameWriter.start (Lz4fEncoder.cctx (F := F) e.state)).Steps W ∧ Lz4fFollowed s W := by
  induction hrun with
  | new => exact ⟨_, .refl, lz4fFollowed_start hnew⟩
  | call _ buf mode hbegins ih =>
    obtain ⟨W, hsteps, hW⟩ := ih
    obtain ⟨W', hsteps', hW', -⟩ := hW.next hbegins
    exact ⟨W', hsteps.trans hsteps', hW'⟩

/-- What the header says of the payload that the caller brings. -/
def Lz4fDeclares (s : Lz4fEncoder F) (taken : List UInt8) : Option (List UInt8) → Prop
  | none => s.prefs.contentSize = 0 ∧ s.ended = false
  | some x => (s.prefs.contentSize = 0 ∨ s.prefs.contentSize = x.length) ∧
      (s.ended = true → taken = x)

theorem Lz4fFollowed.untaken {s : Encoding (lz4FrameCodec F)} {W : FrameWriter F}
    (h : Lz4fFollowed s W) (hstarted : Lz4fEncoder.started (F := F) s.enc.state = false) :
    s.taken = [] := by
  rw [← h.payload]
  rcases h.written.logged with ⟨hlog, -, -⟩ | ⟨-, hst, -⟩ | ⟨-, hst, -⟩
  · rw [hlog, Lz4fLog.payload_nil]
  · exact absurd hst (by simp [hstarted])
  · exact absurd hst (by simp [hstarted])

/-- A content size in the header is the length of the payload the caller brings, and all of it
has been taken where the frame has ended. -/
theorem lz4fSupplied_declares {lookup : CodecId → Option CodecVtable} {opts : EncoderOpts}
    {e : Encoder (lz4FrameCodec F)} (hnew : encoderNew lookup opts = .ok ⟨lz4FrameCodec F, e⟩)
    {px : Option (List UInt8)} {s : Encoding (lz4FrameCodec F)}
    (hs : Encoding.SuppliedBy Lz4fBegins e px s) :
    Lz4fDeclares (F := F) s.enc.state s.taken px := by
  induction hs with
  | new =>
    obtain ⟨-, z, level, hstate⟩ := lz4fEncoder_fresh hnew
    change Lz4fDeclares (F := F) e.state [] none
    rw [hstate]
    exact ⟨rfl, rfl⟩
  | @more s hs buf mode hmode hbegins ih =>
    obtain ⟨W, -, hW⟩ := lz4fRun_followed hnew hs.runBy
    obtain ⟨-, -, -, hprefs, hended⟩ := hW.next hbegins
    refine ⟨?_, ?_⟩
    · rcases hprefs with hprefs | ⟨-, hfinish, -⟩
      · rw [hprefs]
        exact ih.1
      · exact absurd hfinish hmode
    · rw [← Bool.not_eq_true]
      intro hend
      rcases hended hend with ⟨hend₀, -⟩ | ⟨hfinish, -⟩
      · exact absurd hend₀ (by simp [ih.2])
      · exact hmode hfinish
  | @finish s hs buf hbegins ih =>
    obtain ⟨W, -, hW⟩ := lz4fRun_followed hnew hs.runBy
    obtain ⟨-, -, -, hprefs, hended⟩ := hW.next hbegins
    refine ⟨?_, fun hend => ?_⟩
    · rcases hprefs with hprefs | ⟨hstarted, -, hsize⟩
      · rw [hprefs]
        exact .inl ih.1
      · rw [hW.untaken hstarted, List.nil_append]
        exact .inr hsize
    · rcases hended hend with ⟨hend₀, -⟩ | ⟨-, htaken⟩
      · exact absurd hend₀ (by simp [ih.2])
      · exact htaken
  | @rest s x hs buf hbuf mode hbegins ih =>
    obtain ⟨W, -, hW⟩ := lz4fRun_followed hnew hs.runBy
    obtain ⟨-, -, -, hprefs, hended⟩ := hW.next hbegins
    refine ⟨?_, fun hend => ?_⟩
    · rcases hprefs with hprefs | ⟨hstarted, -, hsize⟩
      · rw [hprefs]
        exact ih.1
      · rw [hW.untaken hstarted, List.nil_append] at hbuf
        exact .inr (hbuf ▸ hsize)
    · rcases hended hend with ⟨hend₀, htaken⟩ | ⟨-, htaken⟩
      · rw [htaken]
        exact ih.2 hend₀
      · rw [htaken]
        exact hbuf

/-- What is known of a session with an lz4-frame encoder. -/
structure Lz4fWrites (e : Encoder (lz4FrameCodec F)) (s : Encoding (lz4FrameCodec F))
    (W : FrameWriter F) : Prop where
  steps : (FrameWriter.start (Lz4fEncoder.cctx (F := F) e.state)).Steps W
  cctx : W.cctx = Lz4fEncoder.cctx (F := F) s.enc.state
  stage : W.stage = Lz4fEncoder.stage (F := F) s.enc.state
  given : W.given = s.given
  outputs : W.given ++ W.stage = W.log.outputs
  payload : W.log.payload = s.taken
  order : W.log = [] ∨ ∃ prefs, W.log.Open prefs ∨ W.log.Whole prefs
  ends : ∀ buf mode, (encoderProcess s.enc buf mode).1 = .streamEnd →
    (s.next buf mode).enc.finished = true
  finished : s.enc.finished = true → W.stage = [] ∧ ∃ prefs, W.log.Whole prefs ∧
    ∀ px, Encoding.SuppliedBy Lz4fBegins e px s →
      prefs.contentSize = 0 ∨ prefs.contentSize = W.log.payload.length

theorem lz4fRun_writes {lookup : CodecId → Option CodecVtable} {opts : EncoderOpts}
    {e : Encoder (lz4FrameCodec F)} (hnew : encoderNew lookup opts = .ok ⟨lz4FrameCodec F, e⟩)
    {s : Encoding (lz4FrameCodec F)} (hrun : Encoding.RunBy Lz4fBegins e s) :
    ∃ W, Lz4fWrites e s W := by
  have hv : (lz4FrameCodec F).encoderProcess = onBuffer lz4fEncoderProcess := rfl
  obtain ⟨W, hsteps, hW⟩ := lz4fRun_followed hnew hrun
  have hlogged := hW.written.logged
  refine ⟨W, hsteps, hW.written.cctx, hW.written.stage, hW.given, hsteps.exact rfl, hW.payload, ?_,
    fun buf mode h => Encoding.next_finished hv h, fun hfin => ?_⟩
  · rcases hlogged with ⟨hlog, -, -⟩ | ⟨hlog, -, -⟩ | ⟨hlog, -, -⟩
    · exact .inl hlog
    · exact .inr ⟨_, .inl hlog⟩
    · exact .inr ⟨_, .inr hlog⟩
  · obtain ⟨hended, hstage⟩ := hW.finished hfin
    refine ⟨hW.written.stage.trans hstage, ?_⟩
    rcases hlogged with ⟨-, -, hend⟩ | ⟨-, -, hend⟩ | ⟨hlog, -, -⟩
    · exact absurd hended (by simp [hend])
    · exact absurd hended (by simp [hend])
    · refine ⟨_, hlog, fun px hs => ?_⟩
      have hdeclares := lz4fSupplied_declares hnew hs
      rw [hW.payload]
      cases px with
      | none => exact .inl hdeclares.1
      | some x =>
        rw [hdeclares.2 hended]
        exact hdeclares.1

/-- An lz4-block caller is given liblz4's block of its payload, however it splits the payload and
whatever windows it brings; an lz4-frame encoder is always some writer of one frame, in every run
whose `LZ4F_compressBegin` has the memory it asks for. -/
theorem lz4Staging_exact {Z : Lz4} (L : Lz4Blocks Z) :
    (∀ (lookup : CodecId → Option CodecVtable) (opts : EncoderOpts) (e : Encoder (lz4BlockCodec Z)),
      encoderNew lookup opts = .ok ⟨lz4BlockCodec Z, e⟩ →
      ∀ chunks : List (List UInt8), chunks.flatten.length < wordSize → ∀ ws room,
        Returns (sendTurn ws) (Send.start e room chunks)
          (sendResult (lz4bBlock Z opts.level chunks.flatten))) ∧
    ∀ (F : Lz4f) (lookup : CodecId → Option CodecVtable) (opts : EncoderOpts)
      (e : Encoder (lz4FrameCodec F)), encoderNew lookup opts = .ok ⟨lz4FrameCodec F, e⟩ →
      ∀ s, Encoding.RunBy Lz4fBegins e s → ∃ W, Lz4fWrites e s W :=
  ⟨fun _ _ _ hnew chunks hx ws room => lz4bSend_ends L ws hnew room chunks hx,
    fun _ _ _ _ hnew _ hrun => lz4fRun_writes hnew hrun⟩

/-- liblz4's uncompressed block, of fewer than 256 bytes. -/
def refLz4fBlock (x : List UInt8) : List UInt8 :=
  if x = [] then [] else [UInt8.ofNat x.length, 0, 0, 0x80] ++ x

/-- A liblz4 that also writes the frame of the letter `a`. -/
def refLz4fWriter : Lz4f where
  toFrameLib := refUnframe lz4fA .other
  createDctx := some (⟨0, 0⟩ : RefUnframe)
  resetDctx _ := (⟨0, 0⟩ : RefUnframe)
  Cctx := List UInt8
  createCctx := some []
  begin _ _ := (.ok [0x04, 0x22, 0x4D, 0x18, 0x4C, 0x40, 1, 0, 0, 0, 0, 0, 0, 0, 0xDF], [])
  update z x := (.ok [], z ++ x)
  flush z := (.ok (refLz4fBlock z), [])
  finish z := (.ok (refLz4fBlock z ++ [0, 0, 0, 0, 0x56, 0x74, 0x0D, 0x55]), [])

def letterOpts : EncoderOpts :=
  { structSize := encoderOptsSize, codec := codecLz4Frame, level := levelDefault, flags := 0 }

def letterEncoder : Encoder (lz4FrameCodec refLz4fWriter) where
  state := (⟨[], levelDefault, lz4fPrefs levelDefault, false, false, false, []⟩ :
    Lz4fEncoder refLz4fWriter)
  opts := letterOpts
  finished := false

theorem letterEncoder_new : encoderNew (fun _ => some (lz4FrameCodec refLz4fWriter)) letterOpts =
    .ok ⟨lz4FrameCodec refLz4fWriter, letterEncoder⟩ := rfl

/-- Two letters byte by byte, and one letter in a single call. -/
theorem lz4Staging_exact_letters :
    Returns (sendTurn byteWindows) (Send.start fastestEncoder 1 [[0x61], [0x62]])
      ⟨.streamEnd, [0x20, 0x61, 0x62]⟩ ∧
    ∃ W, Lz4fWrites letterEncoder
      ((Encoding.start letterEncoder).next (.ofParts [0x61] 64) .finish) W :=
  ⟨(lz4Staging_exact refLz4Blocks).1 _ _ _ fastestEncoder_new _ (by decide) byteWindows 1,
    (lz4Staging_exact refLz4Blocks).2 _ _ _ _ letterEncoder_new _
      (.call .new _ _ fun _ _ => ⟨_, _, rfl⟩)⟩

/-! ## A frame that cannot begin -/

/-- A liblz4 without memory for `LZ4F_compressBegin`. In a new context `LZ4F_compressEnd` writes
the end mark and the checksum of no content all the same. -/
def refLz4fStarved : Lz4f where
  toFrameLib := refUnframe lz4fA .other
  createDctx := some (⟨0, 0⟩ : RefUnframe)
  resetDctx _ := (⟨0, 0⟩ : RefUnframe)
  Cctx := Unit
  createCctx := some ()
  begin _ _ := (.error .allocationFailed, ())
  update _ _ := (.error .other, ())
  flush _ := (.ok [], ())
  finish _ := (.ok [0, 0, 0, 0, 0x05, 0x5D, 0xCC, 0x02], ())

def starvedEncoder : Encoder (lz4FrameCodec refLz4fStarved) where
  state := (⟨(), levelDefault, lz4fPrefs levelDefault, false, false, false, []⟩ :
    Lz4fEncoder refLz4fStarved)
  opts := letterOpts
  finished := false

theorem starved_unlogged {W W' : FrameWriter refLz4fStarved} (h : W.Steps W')
    (hW : ∀ c ∈ W.log, ∀ prefs, c.1 ≠ .begin prefs) :
    ∀ c ∈ W'.log, ∀ prefs, c.1 ≠ .begin prefs := by
  induction h with
  | refl => exact hW
  | tail _ hstep ih =>
    cases hstep with
    | deliver => exact ih
    | failed => exact ih
    | call hstage hcall =>
      intro c hc prefs heq
      rcases List.mem_append.mp hc with hc | hc
      · exact ih c hc prefs heq
      · rw [List.mem_singleton.mp hc] at heq
        subst heq
        cases hcall

/-- After a frame that could not begin, an empty `ZU_FINISH` ends the stream without a header. -/
theorem lz4Staging_unbegun :
    let s := (Encoding.start starvedEncoder).next (.ofParts [] 64) .finish
    let s' := s.next (.ofParts [] 64) .finish
    (encoderProcess starvedEncoder (.ofParts [] 64) .finish).1 = .errMemory ∧
      (encoderProcess s.enc (.ofParts [] 64) .finish).1 = .streamEnd ∧
      s'.given = [0, 0, 0, 0, 0x05, 0x5D, 0xCC, 0x02] ∧
      ¬ ∀ (F : Lz4f) (lookup : CodecId → Option CodecVtable) (opts : EncoderOpts)
        (e : Encoder (lz4FrameCodec F)), encoderNew lookup opts = .ok ⟨lz4FrameCodec F, e⟩ →
        ∀ s, Encoding.Run e s → ∃ W, Lz4fWrites e s W := by
  refine ⟨by decide, by decide, by decide, fun hall => ?_⟩
  obtain ⟨W, hW⟩ := hall refLz4fStarved (fun _ => some (lz4FrameCodec refLz4fStarved)) letterOpts
    starvedEncoder rfl _ (.call (.call .new (.ofParts [] 64) .finish) (.ofParts [] 64) .finish)
  obtain ⟨-, prefs, ⟨log, tail, hlog, header, inner, hopen, -⟩, -⟩ := hW.finished (by decide)
  refine starved_unlogged hW.steps (by simp [FrameWriter.start]) (.begin prefs, header) ?_ prefs rfl
  rw [hlog, hopen]
  simp

end Zukomp
