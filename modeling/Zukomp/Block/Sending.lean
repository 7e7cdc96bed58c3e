import Zukomp.Block.Expected
import Zukomp.Core.Sending

/-! # Sending a payload through the lz4-block encoder

Three routes lead from the payload to the caller: the caller's own input into the caller's window,
the gathered input into the stage, and the stage into the windows that follow. All of them give
the block that liblz4 makes of the whole payload.
-/

namespace Zukomp

open Library

variable {Z : Lz4} {s : Lz4bState} {w : Window}

/-- What the encoder makes of a whole payload. -/
def lz4bBlock (Z : Lz4) (level : ℤ) (x : List UInt8) : Except Status (List UInt8) :=
  if lz4MaxInputSize < x.length then .error .errInvalidArgument
  else match lz4bCompress Z level x (lz4CompressBound x.length) with
    | none => .error .errInternal
    | some block => .ok block

theorem lz4bBlock_length (L : Lz4Blocks Z) {level : ℤ} {x b : List UInt8}
    (h : lz4bBlock Z level x = .ok b) : b.length ≤ lz4CompressBound x.length := by
  unfold lz4bBlock at h
  split_ifs at h with hlong
  obtain ⟨b', hb', -, hle⟩ := lz4bCompress_block L level (Nat.not_lt.mp hlong)
  rw [hb'] at h
  exact Except.ok.inj h ▸ hle

theorem lz4bBlock_error {level : ℤ} {x : List UInt8} {st : Status}
    (h : lz4bBlock Z level x = .error st) : st = .errInvalidArgument ∨ st = .errInternal := by
  unfold lz4bBlock at h
  split_ifs at h
  · exact .inl (Except.error.inj h).symm
  · split at h
    · exact .inr (Except.error.inj h).symm
    · cases h

theorem lz4bEncoder_holds {mode : Flush} (henc : s.encoder = true) (hdone : s.done = false)
    (hheld : s.input.length ≤ lz4MaxInputSize) (hword : s.input.length + w.input.length < wordSize)
    (hmode : mode ≠ .finish) :
    lz4bEncoderProcess Z s w mode =
      if lz4MaxInputSize < s.input.length + w.input.length then (.errInvalidArgument, s, w)
      else (.needInput, { s with input := s.input ++ w.input }, w.take w.input.length) := by
  rw [lz4bEncoderProcess, if_neg (by simp [hdone]), if_pos hmode, lz4bHold]
  by_cases hlong : lz4MaxInputSize < s.input.length + w.input.length
  · rw [if_pos hlong, lz4bGather_over hheld hlong hword, if_pos henc]
  · rw [if_neg hlong, lz4bGather_fits (Nat.not_lt.mp hlong)]

/-- Under `ZU_FINISH` the answer is that of the whole payload, whatever has been gathered of it and
whatever room there is. -/
theorem lz4bEncoder_finishes (L : Lz4Blocks Z) (henc : s.encoder = true) (hdone : s.done = false)
    (hstage : s.stage = []) (hheld : s.input.length ≤ lz4MaxInputSize)
    (hword : s.input.length + w.input.length < wordSize) :
    Lz4bAnswers w (lz4bBlock Z s.level (s.input ++ w.input))
      (lz4bEncoderProcess Z s w .finish) := by
  have hlen : (s.input ++ w.input).length = s.input.length + w.input.length :=
    List.length_append
  have hrefused (st : Status) : Lz4bAnswers w (.error st) (st, s, w) := by
    have h : Lz4bAnswers w (.error st) (st, s, w.take 0) := .refused (Nat.zero_le _)
    rwa [Window.take_zero] at h
  have hproc : lz4bEncoderProcess Z s w .finish = _ := if_neg (show ¬ s.done = true by simp [hdone])
  rw [if_neg (by simp)] at hproc
  rw [hproc]
  by_cases hlong : lz4MaxInputSize < s.input.length + w.input.length
  · rw [lz4bBlock, if_pos (by rwa [hlen]), if_neg, lz4bGather_over hheld hlong hword, if_pos henc]
    · exact hrefused _
    · rintro ⟨hnil, hle, -⟩
      rw [hnil, List.length_nil] at hlong
      omega
  obtain ⟨b, hb, -, hle⟩ := lz4bCompress_block L s.level (x := s.input ++ w.input) (by omega)
  have hblock : lz4bBlock Z s.level (s.input ++ w.input) = .ok b := by
    rw [lz4bBlock, if_neg (by omega), hb]
  rw [hblock]
  by_cases hone : s.input = [] ∧ w.input.length ≤ lz4MaxInputSize ∧
      0 < lz4CompressBound w.input.length ∧ lz4CompressBound w.input.length ≤ w.room
  · rw [hone.1, List.nil_append] at hb hle
    rw [if_pos hone, hb]
    have hroom : b.length ≤ w.room := hle.trans hone.2.2.2
    have hdrop : b.drop w.room = [] := List.drop_eq_nil_iff.mpr hroom
    have h : Lz4bAnswers w (.ok b) (if b.drop w.room = [] then .streamEnd else .needOutput,
        { s with done := true }, (w.take w.input.length).put (b.take w.room)) :=
      .decoded rfl (hstage.trans hdrop.symm)
    rwa [if_pos hdrop, List.take_of_length_le hroom] at h
  · rw [if_neg hone, lz4bGather_fits (Nat.not_lt.mp hlong)]
    have hpos : lz4CompressBound (s.input ++ w.input).length ≠ 0 := by
      rw [lz4CompressBound, if_neg (by omega)]
      omega
    dsimp only
    rw [if_neg hpos, hb]
    have hproduced : (Lz4bState.produce { s with input := s.input ++ w.input } b).done = true := rfl
    exact lz4bDrain_answer hproduced

/-! ## The runs -/

/-- How a run ends for the caller, given what the encoder makes of the payload. -/
def sendResult : Except Status (List UInt8) → FeedEnd
  | .error st => ⟨st, []⟩
  | .ok b => ⟨.streamEnd, b⟩

/-- A caller whose encoder gathers the payload `x`. -/
structure Lz4bTakes (level : ℤ) (x : List UInt8) (f : Send (lz4BlockCodec Z)) : Prop where
  unfinished : f.enc.finished = false
  encoder : f.enc.state.encoder = true
  level_eq : f.enc.state.level = level
  done : f.enc.state.done = false
  stage : f.enc.state.stage = []
  written : f.written = []
  held : f.enc.state.input.length ≤ lz4MaxInputSize
  split : f.enc.state.input ++ f.unread ++ f.later.flatten = x

structure Lz4bGives (b : List UInt8) (f : Send (lz4BlockCodec Z)) : Prop where
  unfinished : f.enc.finished = false
  done : f.enc.state.done = true
  unread : f.unread = []
  later : f.later = []
  text : f.written ++ f.enc.state.stage = b

def lz4bSendMeasure (b : List UInt8) (f : Send (lz4BlockCodec Z)) : ℕ :=
  if f.enc.state.done then 2 * f.enc.state.stage.length + if f.room = 0 then 1 else 0
  else 2 * b.length + 2 + f.later.length

variable {level : ℤ} {x b y : List UInt8} {f : Send (lz4BlockCodec Z)}

/-- A call that delivers the rest `y` of the block ends the stream, or leaves less of it. -/
theorem sendTurn_gives (ws : Windows) (hfin : f.enc.finished = false) (hlater : f.later = [])
    (htext : f.written ++ y = b)
    (hans : Lz4bAnswers (Buffer.ofParts f.unread f.room).window (.ok y)
      (lz4bEncoderProcess Z f.enc.state (Buffer.ofParts f.unread f.room).window f.mode)) :
    Turn (fun f' => Lz4bGives b f' ∧ f'.enc.state.stage = y.drop f.room ∧ f.room < y.length ∧
        f'.room ≠ 0)
      (fun r => r = ⟨.streamEnd, b⟩) (sendTurn ws f) := by
  set w := (Buffer.ofParts f.unread f.room).window with hw
  have hwindow : w = ⟨f.unread, f.room, []⟩ := Buffer.window_ofParts ..
  generalize hr : lz4bEncoderProcess Z f.enc.state w f.mode = r at hans
  cases hans with | @decoded _ s' done stage =>
  have hwrites : (y.take w.room).length ≤ w.room := List.length_take_le ..
  obtain ⟨buf', hcall, hread, hstored⟩ := encoderProcess_moved rfl
    (checkBuffer_ofParts f.unread f.room) hfin f.mode_ne ⟨le_rfl, hwrites, rfl⟩ hr
  have hunread : buf'.unread = [] := by
    rw [hread, Buffer.unread_ofParts, ← hw, hwindow, List.drop_length]
  simp only [hwindow, Buffer.stored_ofParts, List.nil_append, List.drop_eq_nil_iff]
    at hcall hstored stage
  unfold sendTurn
  rw [hcall, hlater]
  by_cases hfull : y.length ≤ f.room
  · rw [if_pos hfull]
    simp only [turn_inr, hstored, List.take_of_length_le hfull, htext]
  · rw [if_neg hfull]
    simp only [turn_inl]
    refine ⟨⟨rfl, done, hunread, rfl, ?_⟩, stage, Nat.not_le.mp hfull, (ws.pos _).ne'⟩
    rw [stage, hstored, List.append_assoc, List.take_append_drop, htext]

/-- Before the last of its buffers the caller's encoder gathers them. -/
theorem sendTurn_takes (ws : Windows) (hx : x.length < wordSize) (h : Lz4bTakes level x f)
    {chunk : List UInt8} {later : List (List UInt8)} (hlater : f.later = chunk :: later) :
    Turn (fun f' => Lz4bTakes level x f' ∧ f'.later = later)
      (fun r => r = sendResult (lz4bBlock Z level x)) (sendTurn ws f) := by
  obtain ⟨hfin, henc, hlevel, hdone, hstage, hwritten, hheld, hsplit⟩ := h
  have hmode : f.mode ≠ .finish := by simp [Send.mode, hlater]
  have hlen := congrArg List.length hsplit
  simp only [hlater, List.length_append, List.flatten_cons] at hlen
  set w := (Buffer.ofParts f.unread f.room).window with hw
  have hinput : w.input = f.unread := by rw [hw, Buffer.window_ofParts]
  have hr := lz4bEncoder_holds (Z := Z) (w := w) henc hdone hheld (by rw [hinput]; omega) hmode
  by_cases hlong : lz4MaxInputSize < f.enc.state.input.length + w.input.length
  · rw [if_pos hlong] at hr
    obtain ⟨buf', hcall, -, hstored⟩ := encoderProcess_moved rfl
      (checkBuffer_ofParts f.unread f.room) hfin f.mode_ne (.refl w) hr
    have hover : lz4MaxInputSize < x.length := by
      rw [hinput] at hlong
      omega
    unfold sendTurn
    rw [hcall]
    simp only [turn_inr, hstored, hwritten, lz4bBlock, if_pos hover]
    rfl
  · rw [if_neg hlong] at hr
    obtain ⟨buf', hcall, hread, hstored⟩ := encoderProcess_moved rfl
      (checkBuffer_ofParts f.unread f.room) hfin f.mode_ne (.take le_rfl) hr
    have hunread : buf'.unread = [] := by
      rw [hread, Buffer.unread_ofParts, ← hw, hinput, List.drop_length]
    simp only [hinput, Buffer.stored_ofParts, List.append_nil] at hcall hstored
    rw [hinput] at hlong
    unfold sendTurn
    rw [hcall, hlater]
    simp only [turn_inl, hunread, hstored, hwritten, List.nil_append, List.append_nil, and_true]
    refine ⟨rfl, henc, hlevel, hdone, hstage, rfl, ?_, ?_⟩
    · dsimp only
      rw [List.length_append]
      omega
    · rw [← hsplit, hlater, List.flatten_cons]
      simp only [List.append_assoc]

/-- Under `ZU_FINISH` the encoder makes the block of the whole payload. -/
theorem sendTurn_finishes (ws : Windows) (L : Lz4Blocks Z) (hx : x.length < wordSize)
    (h : Lz4bTakes level x f) (hlater : f.later = []) :
    Turn (fun f' => ∃ b, lz4bBlock Z level x = .ok b ∧ Lz4bGives b f' ∧
        f'.enc.state.stage.length ≤ b.length ∧ f'.room ≠ 0)
      (fun r => r = sendResult (lz4bBlock Z level x)) (sendTurn ws f) := by
  obtain ⟨hfin, henc, hlevel, hdone, hstage, hwritten, hheld, hsplit⟩ := h
  have hmode : f.mode = .finish := by simp [Send.mode, hlater]
  rw [hlater, List.flatten_nil, List.append_nil] at hsplit
  set w := (Buffer.ofParts f.unread f.room).window with hw
  have hinput : w.input = f.unread := by rw [hw, Buffer.window_ofParts]
  have hlen := congrArg List.length hsplit
  rw [List.length_append] at hlen
  have hans := lz4bEncoder_finishes (w := w) (s := f.enc.state) L henc hdone hstage hheld
    (by rw [hinput]; omega)
  rw [hinput, hsplit, hlevel, ← hmode] at hans
  cases hblock : lz4bBlock Z level x with
  | error st =>
    rw [hblock] at hans
    generalize hr : lz4bEncoderProcess Z f.enc.state w f.mode = r at hans
    cases hans with | @refused _ s' u read =>
    obtain ⟨buf', hcall, -, hstored⟩ := encoderProcess_moved rfl
      (checkBuffer_ofParts f.unread f.room) hfin f.mode_ne (.take read) hr
    unfold sendTurn
    rw [hcall, hlater]
    rcases lz4bBlock_error hblock with rfl | rfl <;>
      simp only [turn_inr, hstored, hwritten, Buffer.stored_ofParts, List.append_nil, sendResult]
  | ok b =>
    rw [hblock] at hans
    refine (sendTurn_gives ws hfin hlater (by rw [hwritten, List.nil_append]) hans).mono
      (fun f' hf' => ?_) fun r hr => hr
    obtain ⟨hgives, hstage', -, hroom⟩ := hf'
    refine ⟨b, rfl, hgives, ?_, hroom⟩
    rw [hstage', List.length_drop]
    omega

theorem lz4bEncoder_gives (f : Send (lz4BlockCodec Z)) (hdone : f.enc.state.done = true)
    (hunread : f.unread = []) :
    Lz4bAnswers (Buffer.ofParts f.unread f.room).window (.ok f.enc.state.stage)
      (lz4bEncoderProcess Z f.enc.state (Buffer.ofParts f.unread f.room).window f.mode) := by
  set w := (Buffer.ofParts f.unread f.room).window with hw
  have hinput : w.input.length = 0 := by rw [hw, Buffer.window_ofParts, hunread, List.length_nil]
  have hans := lz4bDrain_answer (w := w) hdone
  rw [hinput, Window.take_zero] at hans
  unfold lz4bEncoderProcess
  rwa [if_pos hdone]

theorem lz4bTakes_start {lookup : CodecId → Option CodecVtable} {opts : EncoderOpts}
    {e : Encoder (lz4BlockCodec Z)} (hnew : encoderNew lookup opts = .ok ⟨lz4BlockCodec Z, e⟩)
    (room : ℕ) (chunks : List (List UInt8)) :
    Lz4bTakes opts.level chunks.flatten (Send.start e room chunks) := by
  obtain ⟨hopts, hstate, hfin⟩ := encoderNew_ok hnew
  have hstate : e.state = lz4bNew true opts.level none := by
    rw [hopts] at hstate
    exact (Except.ok.inj hstate).symm
  have hstart (unread : List UInt8) (later : List (List UInt8)) :
      Lz4bTakes opts.level (unread ++ later.flatten) ⟨e, unread, later, room, 0, []⟩ := by
    refine ⟨hfin, ?_, ?_, ?_, ?_, rfl, ?_, ?_⟩ <;> dsimp only <;> rw [hstate]
    · rfl
    · rfl
    · rfl
    · rfl
    · exact Nat.zero_le _
    · rfl
  cases chunks with
  | nil => exact hstart [] []
  | cons chunk later => exact hstart chunk later

/-- However a payload is split, and whatever windows the caller brings, its run ends with the
block that liblz4 makes of the payload. -/
theorem lz4bSend_ends (L : Lz4Blocks Z) (ws : Windows) {lookup : CodecId → Option CodecVtable}
    {opts : EncoderOpts} {e : Encoder (lz4BlockCodec Z)}
    (hnew : encoderNew lookup opts = .ok ⟨lz4BlockCodec Z, e⟩) (room : ℕ)
    (chunks : List (List UInt8)) (hx : chunks.flatten.length < wordSize) :
    Returns (sendTurn ws) (Send.start e room chunks)
      (sendResult (lz4bBlock Z opts.level chunks.flatten)) := by
  set res := lz4bBlock Z opts.level chunks.flatten with hres
  set block := (sendResult res).written with hblock
  have hturn (f : Send (lz4BlockCodec Z)) (hf : Lz4bTakes opts.level chunks.flatten f ∨
      ∃ b, res = .ok b ∧ Lz4bGives b f) :
      Turn (fun f' => (Lz4bTakes opts.level chunks.flatten f' ∨ ∃ b, res = .ok b ∧ Lz4bGives b f') ∧
          lz4bSendMeasure block f' < lz4bSendMeasure block f)
        (fun r => r = sendResult res) (sendTurn ws f) := by
    rcases hf with htakes | ⟨b, hb, hgives⟩
    · have hmeasure : lz4bSendMeasure block f = 2 * block.length + 2 + f.later.length := by
        rw [lz4bSendMeasure, if_neg (by simp [htakes.done])]
      cases hlater : f.later with
      | cons chunk later =>
        refine (sendTurn_takes ws hx htakes hlater).mono (fun f' hf' => ?_) fun r hr => hr
        refine ⟨.inl hf'.1, ?_⟩
        rw [hmeasure, lz4bSendMeasure, if_neg (by simp [hf'.1.done]), hf'.2, hlater,
          List.length_cons]
        omega
      | nil =>
        refine (sendTurn_finishes ws L hx htakes hlater).mono (fun f' hf' => ?_) fun r hr => hr
        obtain ⟨b, hb, hgives, hle, hroom⟩ := hf'
        have hb : res = .ok b := hb
        refine ⟨.inr ⟨b, hb, hgives⟩, ?_⟩
        rw [hmeasure, lz4bSendMeasure, if_pos hgives.done, if_neg hroom, hblock, hb]
        change 2 * _ + 0 < 2 * b.length + 2 + _
        omega
    · have hans := lz4bEncoder_gives f hgives.done hgives.unread
      rw [hb]
      refine (sendTurn_gives ws hgives.unfinished hgives.later hgives.text hans).mono
        (fun f' hf' => ?_) fun r hr => hr
      obtain ⟨hgives', hstage, hlt, hroom⟩ := hf'
      refine ⟨.inr ⟨b, rfl, hgives'⟩, ?_⟩
      rw [lz4bSendMeasure, lz4bSendMeasure, if_pos hgives.done, if_pos hgives'.done, if_neg hroom,
        hstage, List.length_drop]
      split_ifs <;> omega
  obtain ⟨r, hr, rfl⟩ := returns_of_measure
    (fun f => Lz4bTakes opts.level chunks.flatten f ∨ ∃ b, res = .ok b ∧ Lz4bGives b f)
    (lz4bSendMeasure block) hturn (.inl (lz4bTakes_start hnew room chunks))
  exact hr

end Zukomp
