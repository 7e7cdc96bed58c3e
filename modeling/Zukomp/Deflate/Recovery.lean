import Zukomp.Core.Recovery
import Zukomp.Deflate.Renewal

/-! # Resets of the DEFLATE family without memory

Another level takes a new engine. `zu_int_deflate_reset` tears the old one down first and keeps
the old level, so where the new one cannot be had a reset at that level is left to the engine
that is gone.
-/

namespace Zukomp

open Library

variable {E : MzStream}

/-- `zu_int_deflate_reset` over an init of the engine. -/
def deflateResetWith (init : ℤ → MzStatus × E.State) (s : DeflateState E) (level : ℤ) :
    Status × DeflateState E :=
  let want := if s.encoder ∧ level ≠ levelDefault then level else s.level
  match (if s.encoder ∧ want ≠ s.level then init want else E.reset s.mz) with
  | (.ok, mz) => (.ok, { s with
      mz := mz, level := want, mzCalled := false
      checksum := checksumInit s.wrap, uncompressed := 0, hdrPos := 0, tailPos := 0
      probeMagic := false, state := firstState s.wrap
      hdr := writeHdr s.wrap s.encoder want s.hdr
      gz := if s.wrap = .gzip ∧ s.encoder = false then gzipHeaderInit else s.gz })
  | (st, mz) => (fromMz st, { s with mz := mz })

theorem deflateReset_with (s : DeflateState E) (level : ℤ) :
    deflateReset s level = deflateResetWith E.init s level := rfl

/-- What miniz documents of its init with and without memory: `short` is what
`mz_deflateInit2` answers where it cannot allocate, over a stream that has been torn down.
Such a stream is refused by every call. -/
structure MzStream.Restarts.Allocates (R : E.Restarts) (short : ℤ → MzStatus × E.State) where
  init_ok : ∀ level, 0 ≤ level → level ≤ 9 → (E.init level).1 = .ok
  reset_ok : ∀ {level z}, R.At level z → (E.reset z).1 = .ok
  Torn : E.State → Prop
  short_status : ∀ level, (short level).1 = .memError
  short_torn : ∀ level, Torn (short level).2
  reset_torn : ∀ {z}, Torn z → (E.reset z).1 = .streamError ∧ Torn (E.reset z).2
  process_torn : ∀ {z} input room flush, Torn z → Torn (E.process z input room flush).state

/-- An encoder asked for another level than its own. -/
def Relevels (s : DeflateState E) (o : EncoderOpts) : Prop :=
  o.level ≠ levelDefault ∧ o.level ≠ s.level

variable {R : E.Restarts} {short : ℤ → MzStatus × E.State} (A : R.Allocates short)

/-- An encoder whose engine is gone, and the level it still names. -/
structure TornEncoder (level : ℤ) (s : DeflateState E) : Prop where
  encoder_eq : s.encoder = true
  level_eq : s.level = level
  torn : A.Torn s.mz

section Torn

variable {A} {level : ℤ} {s s' : DeflateState E}

@[simp] theorem afterEngine_level (s : DeflateState E) (w : Window) (r : MzStep E.State) :
    (afterEngine s w r).level = s.level := by
  unfold afterEngine
  dsimp only
  split_ifs <;> rfl

theorem TornEncoder.engine (h : TornEncoder A level s) (w : Window) (mode : Flush) :
    TornEncoder A level (afterEngine s w (engineCall s w mode)) := by
  refine ⟨(afterEngine_encoder ..).trans h.encoder_eq, (afterEngine_level ..).trans h.level_eq, ?_⟩
  rw [afterEngine_mz]
  exact A.process_torn _ _ _ h.torn

/-- No turn of an encoder brings the engine back or takes another level. -/
theorem deflateStep_torn (mode : Flush) (h : TornEncoder A level s) (w : Window) :
    Turn (fun y => TornEncoder A level y.1) (fun r => TornEncoder A level r.2.1)
      (deflateStep mode (s, w)) := by
  have henc := h.encoder_eq
  unfold deflateStep
  dsimp only
  cases s.state with
  | done => exact h
  | header =>
    dsimp only
    unfold headerStep
    rw [if_pos henc]
    split_ifs
    · exact h
    · exact ⟨henc, h.level_eq, h.torn⟩
    · exact ⟨henc, h.level_eq, h.torn⟩
  | body =>
    obtain ⟨henc', hlevel, htorn⟩ := h.engine w mode
    dsimp only
    unfold bodyStep
    dsimp only
    split_ifs
    · exact h
    · exact ⟨henc', hlevel, htorn⟩
    · exact ⟨henc', hlevel, htorn⟩
    · exact ⟨henc', hlevel, htorn⟩
    · exact ⟨henc', hlevel, htorn⟩
    · exact ⟨henc', hlevel, htorn⟩
  | memberEnd =>
    dsimp only
    rw [memberEndStep_encoder henc]
    unfold finishMember
    dsimp only
    split_ifs <;> exact ⟨henc, h.level_eq, h.torn⟩
  | trailer =>
    dsimp only
    unfold trailerStep
    rw [if_pos henc]
    split_ifs
    · exact h
    · exact ⟨henc, h.level_eq, h.torn⟩
    · exact ⟨henc, h.level_eq, h.torn⟩

theorem deflateProcess_torn (h : TornEncoder A level s) (w : Window) (mode : Flush) :
    TornEncoder A level (deflateProcess s w mode).2.1 :=
  runLoop_keeps (fun x : DeflateState E × Window => TornEncoder A level x.1)
    (fun r : Status × DeflateState E × Window => TornEncoder A level r.2.1)
    (fun x hx => deflateStep_torn mode hx x.2) (fun _ hx => hx) h _

/-- A reset that asks for no other level never reaches an init. -/
theorem deflateResetWith_kept (init : ℤ → MzStatus × E.State) {request : ℤ}
    (h : ¬ (request ≠ levelDefault ∧ request ≠ s.level)) :
    deflateResetWith init s request = deflateReset s request := by
  have hkept : ¬ (s.encoder ∧
      (if s.encoder ∧ request ≠ levelDefault then request else s.level) ≠ s.level) := by
    rintro ⟨-, hne⟩
    split_ifs at hne with hask
    · exact h ⟨hask.2, hne⟩
    · exact hne rfl
  rw [deflateReset_with]
  unfold deflateResetWith
  dsimp only
  rw [if_neg hkept, if_neg hkept]

/-- A torn stream's own level is the engine's to restart, which is gone. -/
theorem TornEncoder.resetWith (h : TornEncoder A (resolvedLevel level) s)
    (init : ℤ → MzStatus × E.State) {request : ℤ} (hown : levelAfter level request = level) :
    (deflateResetWith init s request).1 = .errInvalidData ∧
      TornEncoder A (resolvedLevel level) (deflateResetWith init s request).2 := by
  have hforced : levelForced true (resolvedLevel level) request = resolvedLevel level := by
    rw [← resolvedLevel_after, hown]
  have hkept : ¬ (s.encoder ∧
      (if s.encoder ∧ request ≠ levelDefault then request else s.level) ≠ s.level) := by
    rintro ⟨-, hne⟩
    rw [h.encoder_eq, h.level_eq] at hne
    exact hne hforced
  obtain ⟨hstatus, htorn⟩ := A.reset_torn h.torn
  unfold deflateResetWith
  dsimp only
  rw [if_neg hkept]
  rcases hr : E.reset s.mz with ⟨st, mz⟩
  rw [hr] at hstatus htorn
  cases hstatus
  exact ⟨rfl, h.encoder_eq, h.level_eq, htorn⟩

/-- A request for another level without memory tears the stream at the level it had. -/
theorem deflateReset_tears (h : s.encoder = true) {o : EncoderOpts} (hask : Relevels s o) :
    (deflateResetWith short s o.level).1 = .errMemory ∧
      TornEncoder A s.level (deflateResetWith short s o.level).2 := by
  have hstatus := A.short_status o.level
  have htorn := A.short_torn o.level
  unfold deflateResetWith
  dsimp only
  rw [if_pos (show s.encoder ∧ o.level ≠ levelDefault from ⟨h, hask.1⟩),
    if_pos (show s.encoder ∧ o.level ≠ s.level from ⟨h, hask.2⟩)]
  rcases hr : short o.level with ⟨st, mz⟩
  rw [hr] at hstatus htorn
  cases hstatus
  exact ⟨rfl, h, rfl, htorn⟩

end Torn

/-- With memory every valid request is granted. -/
theorem deflateReset_accepts (A : R.Allocates short) {wrap : WrapKind} {encoder : Bool} {level : ℤ}
    {s : DeflateState E} (h : Fits R wrap encoder level s) {request : ℤ}
    (hrange : request ≠ levelDefault → 0 ≤ request ∧ request ≤ 9) :
    (deflateReset s request).1 = .ok := by
  have hengine : (if s.encoder ∧
      (if s.encoder ∧ request ≠ levelDefault then request else s.level) ≠ s.level then
        E.init (if s.encoder ∧ request ≠ levelDefault then request else s.level)
      else E.reset s.mz).1 = .ok := by
    by_cases hask : s.encoder ∧ request ≠ levelDefault
    · rw [if_pos hask]
      obtain ⟨hmin, hmax⟩ := hrange hask.2
      split_ifs
      · exact A.init_ok request hmin hmax
      · exact A.reset_ok h.at_
    · rw [if_neg hask, if_neg (by simp)]
      exact A.reset_ok h.at_
  unfold deflateReset
  dsimp only
  rcases hr : (if s.encoder ∧
      (if s.encoder ∧ request ≠ levelDefault then request else s.level) ≠ s.level then
        E.init (if s.encoder ∧ request ≠ levelDefault then request else s.level)
      else E.reset s.mz) with ⟨st, mz⟩
  rw [hr] at hengine
  cases hengine
  rfl

/-! ## The vtables -/

variable {M : Miniz} (codec : CodecId) (wrap : WrapKind)

def deflateRecovery {R : M.deflate.Restarts} {short : ℤ → MzStatus × M.deflate.State}
    (A : R.Allocates short) :
    EncoderRecovery (v := deflateVtable M codec wrap) (fun s o => deflateResetWith short s o.level)
      (deflateEncoderRenewal wrap codec R).toEncoderUpkeep Relevels where
  reset s o := deflateReset s o.level
  has := rfl
  accepts h hlevel := deflateReset_accepts A h fun hne =>
    checkLevel_range hlevel (by simp [deflateVtable]) hne
  spared h := deflateResetWith_kept short h
  Torn level := TornEncoder A (resolvedLevel level)
  tears {level s o} h hask := by
    have h : Fits R wrap true (resolvedLevel level) s := h
    obtain ⟨hst, htorn⟩ := deflateReset_tears (A := A) h.encoder_eq hask
    rw [h.level_eq] at htorn
    exact ⟨hst.trans_ne nofun, htorn⟩
  torn_process w mode h := deflateProcess_torn h w mode
  torn_reset h hown := by
    obtain ⟨hst, htorn⟩ := TornEncoder.resetWith h M.deflate.init hown
    exact ⟨hst.trans_ne nofun, htorn⟩
  torn_starved h hown := by
    obtain ⟨hst, htorn⟩ := TornEncoder.resetWith h short hown
    exact ⟨hst.trans_ne nofun, htorn⟩

/-! ## An engine that can be torn down -/

/-- The engine, or nothing where its stream has been torn down. -/
def MzStream.tearable (E : MzStream) : MzStream where
  State := Option E.State
  init level := ((E.init level).1, some (E.init level).2)
  reset
    | none => (.streamError, none)
    | some z => ((E.reset z).1, some (E.reset z).2)
  process z input room flush := match z with
    | none => ⟨.streamError, none, 0, []⟩
    | some z => { E.process z input room flush with state := some (E.process z input room flush).state }
  used_le z input room flush := by
    cases z with
    | none => exact Nat.zero_le _
    | some z => exact E.used_le z input room flush
  out_le z input room flush := by
    cases z with
    | none => exact Nat.zero_le _
    | some z => exact E.out_le z input room flush
  reset_status z := by
    cases z with
    | none => exact .inr rfl
    | some z => exact E.reset_status z

/-- What its init answers without memory. -/
def shortInit (E : MzStream) (_ : ℤ) : MzStatus × E.tearable.State := (.memError, none)

/-- It restarts as the engine does, while there is one. -/
def MzStream.Restarts.tearable (R : E.Restarts) : E.tearable.Restarts where
  Same := Option.Rel R.Same
  At level z := ∃ y, z = some y ∧ R.At level y
  refl
    | none => .none
    | some z => .some (R.refl z)
  init_status := R.init_status
  init hok := ⟨_, rfl, R.init hok⟩
  process_at := by
    rintro level _ input room flush ⟨y, rfl, hy⟩
    exact ⟨_, rfl, R.process_at input room flush hy⟩
  reset_at := by
    rintro level _ ⟨y, rfl, hy⟩
    exact ⟨_, rfl, R.reset_at hy⟩
  restores := by
    rintro level _ ⟨y, rfl, hy⟩ hok hinit
    exact .some (R.restores hy hok hinit)
  process := by
    rintro _ _ input room flush (hsame | _)
    · obtain ⟨hst, hused, hout, hstate⟩ := R.process input room flush hsame
      exact ⟨hst, hused, hout, .some hstate⟩
    · exact ⟨rfl, rfl, rfl, .none⟩
  reset := by
    rintro _ _ (hsame | _)
    · obtain ⟨hst, hstate⟩ := R.reset hsame
      exact ⟨hst, .some hstate⟩
    · exact ⟨rfl, .none⟩

def tearable_allocates (R : E.Restarts) (hinit : ∀ level, (E.init level).1 = .ok)
    (hreset : ∀ z, (E.reset z).1 = .ok) : R.tearable.Allocates (shortInit E) where
  init_ok level _ _ := hinit level
  reset_ok := by
    rintro level _ ⟨y, rfl, -⟩
    exact hreset y
  Torn z := z = none
  short_status _ := rfl
  short_torn _ := rfl
  reset_torn := by
    rintro _ rfl
    exact ⟨rfl, rfl⟩
  process_torn := by
    rintro _ input room flush rfl
    rfl

end Zukomp
