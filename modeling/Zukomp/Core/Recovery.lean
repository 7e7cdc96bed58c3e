import Zukomp.Core.Layout
import Zukomp.Core.Renewal

/-! # What a failed reset leaves behind

A codec's reset may need memory. Where there is none it fails halfway, and the handle keeps
what it has come to.
-/

namespace Zukomp

open Library

variable {v : CodecVtable}

/-! ## Resets that may run out of memory -/

/-- `zu_encoder_reset` around a reset of the codec. -/
def encoderResetWith (codecReset : Option (v.Enc → EncoderOpts → Status × v.Enc)) (e : Encoder v)
    (opts : Option EncoderOpts) : Status × Encoder v :=
  let given := opts.getD e.opts
  if given.structSize < encoderOptsSize then (.errInvalidArgument, e)
  else
    let use := copyEncoderOpts given
    if use.codec ≠ e.opts.codec then (.errInvalidArgument, e)
    else if checkLevel v use.level ≠ .ok then (checkLevel v use.level, e)
    else match codecReset with
      | none => (.errUnsupported, e)
      | some reset => match reset e.state use with
        | (.ok, s) => (.ok, { state := s, opts := use, finished := false })
        | (st, s) => (st, { e with state := s })

theorem encoderReset_with (e : Encoder v) (o : Option EncoderOpts) :
    encoderReset e o = encoderResetWith v.encoderReset e o := rfl

section With

variable {codecReset : v.Enc → EncoderOpts → Status × v.Enc} {e : Encoder v}
  {o : Option EncoderOpts}

/-- The driver refuses what does not pass before the codec sees it. -/
theorem encoderResetWith_refused (h : ¬ EncoderOpts.Passes e (o.getD e.opts)) :
    encoderResetWith (some codecReset) e o = (.errInvalidArgument, e) := by
  unfold encoderResetWith
  dsimp only
  by_cases hsize : (o.getD e.opts).structSize < encoderOptsSize
  · rw [if_pos hsize]
  rw [if_neg hsize]
  by_cases hcodec : (copyEncoderOpts (o.getD e.opts)).codec ≠ e.opts.codec
  · rw [if_pos hcodec]
  rw [if_neg hcodec]
  have hlevel : checkLevel v (copyEncoderOpts (o.getD e.opts)).level ≠ .ok := fun hok =>
    h ⟨UInt32.not_lt.mp hsize, not_not.mp hcodec, hok⟩
  rw [if_pos hlevel, (checkLevel_cases v _).resolve_left hlevel]

theorem encoderResetWith_passed (h : EncoderOpts.Passes e (o.getD e.opts)) :
    encoderResetWith (some codecReset) e o =
      match codecReset e.state (copyEncoderOpts (o.getD e.opts)) with
      | (.ok, s) => (.ok, { state := s, opts := copyEncoderOpts (o.getD e.opts), finished := false })
      | (st, s) => (st, { e with state := s }) := by
  have hcodec : ¬ (copyEncoderOpts (o.getD e.opts)).codec ≠ e.opts.codec := not_not.mpr h.codec
  have hlevel : ¬ checkLevel v (copyEncoderOpts (o.getD e.opts)).level ≠ .ok := not_not.mpr h.level
  unfold encoderResetWith
  dsimp only
  rw [if_neg (UInt32.not_lt.mpr h.size), if_neg hcodec, if_neg hlevel]

theorem encoderResetWith_status (h : EncoderOpts.Passes e (o.getD e.opts)) :
    (encoderResetWith (some codecReset) e o).1 =
      (codecReset e.state (copyEncoderOpts (o.getD e.opts))).1 := by
  rw [encoderResetWith_passed h]
  rcases codecReset e.state (copyEncoderOpts (o.getD e.opts)) with ⟨st, s⟩
  cases st <;> rfl

theorem encoderResetWith_failed (h : EncoderOpts.Passes e (o.getD e.opts))
    (hfail : (codecReset e.state (copyEncoderOpts (o.getD e.opts))).1 ≠ .ok) :
    (encoderResetWith (some codecReset) e o).2 =
      { e with state := (codecReset e.state (copyEncoderOpts (o.getD e.opts))).2 } := by
  rw [encoderResetWith_passed h]
  rcases hr : codecReset e.state (copyEncoderOpts (o.getD e.opts)) with ⟨st, s⟩
  rw [hr] at hfail
  cases st with
  | ok => exact absurd rfl hfail
  | _ => rfl

end With

/-! ## Runs -/

/-- What a caller does with an encoder: a reset says whether there is memory for it. -/
inductive EncoderAct where
  | process (buf : Buffer) (mode : Flush)
  | reset (o : Option EncoderOpts) (memory : Bool)

variable (starved : v.Enc → EncoderOpts → Status × v.Enc)

/-- A reset with memory for it, or by what the codec does without. -/
def Encoder.resetIn (e : Encoder v) (o : Option EncoderOpts) (memory : Bool) : Status × Encoder v :=
  if memory then encoderReset e o else encoderResetWith (some starved) e o

def Encoder.act (e : Encoder v) : EncoderAct → Encoder v
  | .process buf mode => (encoderProcess e buf mode).2.1
  | .reset o memory => (e.resetIn starved o memory).2

/-- An act that asks for no other level than the one in force. -/
def EncoderAct.Keeps (level : ℤ) : EncoderAct → Prop
  | .process _ _ => True
  | .reset o _ => levelAfterReset level o = level

/-- Whatever is done at the handle's own level, its resets at that level go on failing. -/
def Refused (level : ℤ) (e : Encoder v) : Prop :=
  ∀ acts : List EncoderAct, (∀ act ∈ acts, act.Keeps level) → ∀ o : Option EncoderOpts,
    levelAfterReset level o = level →
      (encoderReset (acts.foldl (fun e act => e.act starved act) e) o).1 ≠ .ok

/-- Every reset with valid options and memory for it succeeds, and leaves an encoder that
answers as a new one does at the level selected. -/
def Restores (level : ℤ) (e : Encoder v) : Prop :=
  ∀ o : Option EncoderOpts, EncoderOpts.Passes e (o.getD e.opts) → (encoderReset e o).1 = .ok ∧
    ∀ {lookup : CodecId → Option CodecVtable} {opts : EncoderOpts} {f : Encoder v},
      encoderNew lookup opts = .ok ⟨v, f⟩ → opts.level = levelAfterReset level o →
        ∀ calls : List (Buffer × Flush),
          answers encoderAnswer (encoderReset e o).2 calls = answers encoderAnswer f calls

/-- What a failed reset of `e` is to leave. -/
structure Recovers (level : ℤ) (e e' : Encoder v) : Prop where
  resumes : e' = e ∨ Restores level e'
  admits : ¬ Refused starved level e'

/-- Every failed reset of the run recovers. -/
def RunRecovers : ℤ → Encoder v → List EncoderAct → Prop
  | _, _, [] => True
  | level, e, .process buf mode :: acts => RunRecovers level (encoderProcess e buf mode).2.1 acts
  | level, e, .reset o memory :: acts =>
    if (e.resetIn starved o memory).1 = .ok then
      RunRecovers (levelAfterReset level o) (e.resetIn starved o memory).2 acts
    else
      Recovers starved level e (e.resetIn starved o memory).2 ∧
        RunRecovers level (e.resetIn starved o memory).2 acts

/-- No reset of the run gets as far as needing memory that there is not. -/
def RunFed (Starves : v.Enc → EncoderOpts → Prop) : Encoder v → List EncoderAct → Prop
  | _, [] => True
  | e, .process buf mode :: acts => RunFed Starves (encoderProcess e buf mode).2.1 acts
  | e, .reset o memory :: acts =>
    ¬ (memory = false ∧ EncoderOpts.Passes e (o.getD e.opts) ∧
      Starves e.state (copyEncoderOpts (o.getD e.opts))) ∧
      RunFed Starves (e.resetIn starved o memory).2 acts

/-! ## Codecs -/

/-- An encoder whose resets fail only for want of memory, and are then beyond its own level.
`Starves` says that a reset needs memory, and `Torn` what it leaves without. -/
structure EncoderRecovery (k : EncoderUpkeep v) (Starves : v.Enc → EncoderOpts → Prop) where
  reset : v.Enc → EncoderOpts → Status × v.Enc
  has : v.encoderReset = some reset
  accepts : ∀ {level s o}, k.Inv level s → checkLevel v o.level = .ok → (reset s o).1 = .ok
  spared : ∀ {s o}, ¬ Starves s o → starved s o = reset s o
  Torn : ℤ → v.Enc → Prop
  tears : ∀ {level s o}, k.Inv level s → Starves s o →
    (starved s o).1 ≠ .ok ∧ Torn level (starved s o).2
  torn_process : ∀ {level s} w mode, Torn level s → Torn level (k.process s w mode).2.1
  torn_reset : ∀ {level s o}, Torn level s → levelAfter level o.level = level →
    (reset s o).1 ≠ .ok ∧ Torn level (reset s o).2
  torn_starved : ∀ {level s o}, Torn level s → levelAfter level o.level = level →
    (starved s o).1 ≠ .ok ∧ Torn level (starved s o).2

/-- A codec whose reset needs no memory. -/
def EncoderRecovery.ofFrugal {k : EncoderUpkeep v} {reset : v.Enc → EncoderOpts → Status × v.Enc}
    (has : v.encoderReset = some reset)
    (accepts : ∀ {level s o}, k.Inv level s → checkLevel v o.level = .ok → (reset s o).1 = .ok) :
    EncoderRecovery reset k fun _ _ => False where
  reset := reset
  has := has
  accepts := accepts
  spared _ := rfl
  Torn _ _ := False
  tears _ := False.elim
  torn_process _ _ := id
  torn_reset := False.elim
  torn_starved := False.elim

namespace EncoderRecovery

variable {starved} {k : EncoderUpkeep v} {Starves : v.Enc → EncoderOpts → Prop}
  (r : EncoderRecovery starved k Starves) {level : ℤ} {e : Encoder v}

include r in
theorem reset_with (e : Encoder v) (o : Option EncoderOpts) :
    encoderReset e o = encoderResetWith (some r.reset) e o := by
  rw [encoderReset_with, r.has]

include r in
theorem granted (h : k.Living level e) {o : Option EncoderOpts}
    (hpass : EncoderOpts.Passes e (o.getD e.opts)) : (encoderReset e o).1 = .ok := by
  rw [r.reset_with, encoderResetWith_status hpass]
  exact r.accepts h.inv hpass.level

def askNothing (e : Encoder v) : EncoderOpts where
  structSize := encoderOptsSize
  codec := e.opts.codec
  level := levelDefault
  flags := 0

include r in
theorem admits (h : k.Living level e) : ¬ Refused starved level e := by
  intro hrefused
  have hpass : EncoderOpts.Passes e (askNothing e) := ⟨UInt32.le_refl _, rfl, if_pos rfl⟩
  have hown : levelAfterReset level (some (askNothing e)) = level := by
    change levelAfter level levelDefault = level
    exact if_pos rfl
  exact hrefused [] (by simp) (some (askNothing e)) hown
    (r.granted h hpass)

/-! ### A torn handle -/

/-- A torn handle keeps asking for the level it was at. -/
structure TornHandle (level : ℤ) (e : Encoder v) : Prop where
  torn : r.Torn level e.state
  asks : e.opts.level = levelDefault ∨ e.opts.level = level

variable {r}

theorem TornHandle.own (h : r.TornHandle level e) {o : Option EncoderOpts}
    (ho : levelAfterReset level o = level) :
    levelAfter level (copyEncoderOpts (o.getD e.opts)).level = level := by
  cases o with
  | some o => exact ho
  | none =>
    change levelAfter level e.opts.level = level
    unfold levelAfter
    rcases h.asks with hd | hl
    · rw [if_pos hd]
    · rw [hl, ite_self]

theorem TornHandle.resetWith (h : r.TornHandle level e) {o : Option EncoderOpts}
    {codecReset : v.Enc → EncoderOpts → Status × v.Enc}
    (htorn : (codecReset e.state (copyEncoderOpts (o.getD e.opts))).1 ≠ .ok ∧
      r.Torn level (codecReset e.state (copyEncoderOpts (o.getD e.opts))).2) :
    (encoderResetWith (some codecReset) e o).1 ≠ .ok ∧
      r.TornHandle level (encoderResetWith (some codecReset) e o).2 := by
  by_cases hpass : EncoderOpts.Passes e (o.getD e.opts)
  · rw [encoderResetWith_status hpass, encoderResetWith_failed hpass htorn.1]
    exact ⟨htorn.1, htorn.2, h.asks⟩
  · rw [encoderResetWith_refused hpass]
    exact ⟨by simp, h⟩

theorem TornHandle.reset (h : r.TornHandle level e) {o : Option EncoderOpts}
    (ho : levelAfterReset level o = level) :
    (encoderReset e o).1 ≠ .ok ∧ r.TornHandle level (encoderReset e o).2 := by
  rw [r.reset_with]
  exact h.resetWith (r.torn_reset h.torn (h.own ho))

theorem TornHandle.act (h : r.TornHandle level e) {act : EncoderAct} (hact : act.Keeps level) :
    r.TornHandle level (e.act starved act) := by
  cases act with
  | process buf mode =>
    change r.TornHandle level (encoderProcess e buf mode).2.1
    rcases encoderProcess_cases k.lifted e buf mode with ⟨hsame, -⟩ | ⟨-, hcall⟩
    · have he : (encoderProcess e buf mode).2.1 = e := congrArg Prod.fst hsame
      rw [he]
      exact h
    · rw [hcall]
      exact ⟨r.torn_process buf.window mode h.torn, h.asks⟩
  | reset o memory =>
    change r.TornHandle level (e.resetIn starved o memory).2
    unfold Encoder.resetIn
    split_ifs
    · exact (h.reset hact).2
    · exact (h.resetWith (r.torn_starved h.torn (h.own hact))).2

/-- So it stays, whatever is done at its level. -/
theorem TornHandle.refused (h : r.TornHandle level e) : Refused starved level e := by
  intro acts hacts o ho
  induction acts generalizing e with
  | nil => exact (h.reset ho).1
  | cons act acts ih =>
    rw [List.foldl_cons]
    exact ih (h.act (hacts act List.mem_cons_self)) fun a ha => hacts a (List.mem_cons_of_mem _ ha)

/-! ### One reset, and a run of them -/

theorem starved_torn (h : k.Living level e) {o : Option EncoderOpts}
    (hpass : EncoderOpts.Passes e (o.getD e.opts))
    (hstarves : Starves e.state (copyEncoderOpts (o.getD e.opts))) :
    (e.resetIn starved o false).1 ≠ .ok ∧ r.TornHandle level (e.resetIn starved o false).2 := by
  obtain ⟨hfail, htorn⟩ := r.tears h.inv hstarves
  change (encoderResetWith (some starved) e o).1 ≠ .ok ∧
    r.TornHandle level (encoderResetWith (some starved) e o).2
  rw [encoderResetWith_status hpass, encoderResetWith_failed hpass hfail]
  exact ⟨hfail, htorn, h.asks⟩

include r in
theorem resetIn_fed {o : Option EncoderOpts} {memory : Bool}
    (hfed : ¬ (memory = false ∧ EncoderOpts.Passes e (o.getD e.opts) ∧
      Starves e.state (copyEncoderOpts (o.getD e.opts)))) :
    e.resetIn starved o memory = encoderReset e o := by
  cases memory with
  | true => rfl
  | false =>
    change encoderResetWith (some starved) e o = encoderReset e o
    rw [r.reset_with]
    by_cases hpass : EncoderOpts.Passes e (o.getD e.opts)
    · have hspared := r.spared fun hstarves => hfed ⟨rfl, hpass, hstarves⟩
      rw [encoderResetWith_passed hpass, encoderResetWith_passed hpass, hspared]
    · rw [encoderResetWith_refused hpass, encoderResetWith_refused hpass]

include r in
/-- Such a reset fails only where the driver refuses it, and changes nothing. -/
theorem reset_unchanged (h : k.Living level e) {o : Option EncoderOpts}
    (hfail : (encoderReset e o).1 ≠ .ok) : (encoderReset e o).2 = e := by
  have hpass : ¬ EncoderOpts.Passes e (o.getD e.opts) := fun hpass =>
    hfail (r.granted h hpass)
  rw [r.reset_with, encoderResetWith_refused hpass]

include r in
/-- From a living handle the failed resets of a run all recover exactly where none of its
resets needs memory that there is not. -/
theorem run_recovers (acts : List EncoderAct) (h : k.Living level e) :
    RunRecovers starved level e acts ↔ RunFed starved Starves e acts := by
  induction acts generalizing level e with
  | nil => exact Iff.rfl
  | cons act acts ih =>
    cases act with
    | process buf mode => exact ih (h.process buf mode)
    | reset o memory =>
      by_cases hfed : memory = false ∧ EncoderOpts.Passes e (o.getD e.opts) ∧
          Starves e.state (copyEncoderOpts (o.getD e.opts))
      · -- the handle is torn, and refused for good
        refine iff_of_false (fun hrun => ?_) fun hrun => hrun.1 hfed
        obtain ⟨rfl, hpass, hstarves⟩ := hfed
        obtain ⟨hfail, htorn⟩ := starved_torn (r := r) h hpass hstarves
        rw [RunRecovers, if_neg hfail] at hrun
        exact hrun.1.admits htorn.refused
      · rw [RunRecovers, RunFed, and_iff_right hfed, r.resetIn_fed hfed]
        by_cases hok : (encoderReset e o).1 = .ok
        · rw [if_pos hok]
          exact ih (h.reset (Prod.ext hok rfl))
        · rw [if_neg hok, r.reset_unchanged h hok, ih h,
            and_iff_right ⟨.inl rfl, r.admits h⟩]

end EncoderRecovery

end Zukomp
