import Zukomp.Deflate.Written

/-! # A reference compressor

It gathers its input and, once told to finish, gives the body of all that it has taken. The
bodies are a parameter; one choice is a last block under the fixed Huffman code.
-/

namespace Zukomp

open Library

/-- What it has taken, and once it is shut what is left of the body. -/
structure RefDeflate where
  taken : List UInt8
  owed : Option (List UInt8)

/-- Give as much as fits. -/
def RefDeflate.give (taken owed : List UInt8) (used room : ℕ) : MzStep RefDeflate :=
  ⟨if owed.length ≤ room then .streamEnd else .ok, ⟨taken, some (owed.drop room)⟩, used,
    owed.take room⟩

/-- A payload without a body is refused. -/
def refDeflateStep (body : List UInt8 → Option (Progressive UInt8)) (z : RefDeflate)
    (input : List UInt8) (room : ℕ) (flush : MzFlush) : MzStep RefDeflate :=
  match z.owed with
  | some owed =>
    if flush = .finish then RefDeflate.give z.taken owed 0 room else ⟨.streamError, z, 0, []⟩
  | none =>
    if flush = .finish then
      match body (z.taken ++ input) with
      | some c => RefDeflate.give (z.taken ++ input) c.code input.length room
      | none => ⟨.streamError, z, 0, []⟩
    else ⟨if input = [] then .bufError else .ok, ⟨z.taken ++ input, none⟩, input.length, []⟩

def refDeflate (body : List UInt8 → Option (Progressive UInt8)) : MzStream where
  State := RefDeflate
  init _ := (.ok, ⟨[], none⟩)
  reset _ := (.ok, ⟨[], none⟩)
  process := refDeflateStep body
  used_le z input room flush := by
    unfold refDeflateStep
    split <;> split_ifs <;> (try split) <;> simp [RefDeflate.give]
  out_le z input room flush := by
    unfold refDeflateStep
    split <;> split_ifs <;> (try split) <;> simp [RefDeflate.give, List.length_take]
  reset_status _ := .inl rfl

section Contract

variable {body : List UInt8 → Option (Progressive UInt8)}

/-- Where the reference compressor stands, `y` bytes into its body once it is shut. -/
def RefDeflate.Sent (body : List UInt8 → Option (Progressive UInt8)) (z : RefDeflate) (shut : Bool)
    (x y : List UInt8) : Prop :=
  z.taken = x ∧ match z.owed with
    | none => y = []
    | some owed => shut = true ∧ ∃ c, body x = some c ∧ y ++ owed = c.code

/-- Told to finish, it owes the body of all that it has taken. -/
theorem RefDeflate.give_step (htext : ∀ x c, body x = some c → c.text = x)
    {x y input owed : List UInt8} {shut : Bool} {c : Progressive UInt8}
    (hbody : body (x ++ input) = some c) (hcode : y ++ owed = c.code) (room : ℕ) :
    DeflateStep (refDeflate body) (fun c => ∃ x, body x = some c) (RefDeflate.Sent body) shut x y
      input .finish (RefDeflate.give (x ++ input) owed input.length room) := by
  have hall : x ++ input = x ++ input.take input.length := by rw [List.take_length]
  constructor
  · intro _
    refine ⟨hall, by simp [RefDeflate.give], c, hall ▸ hbody, ?_⟩
    change y ++ owed.take room ++ owed.drop room = _
    rw [List.append_assoc, List.take_append_drop, hcode]
  · intro hend
    have hfits : owed.length ≤ room := by
      by_contra hlong
      have : (RefDeflate.give (x ++ input) owed input.length room).status = .ok := if_neg hlong
      rw [this] at hend
      cases hend
    refine ⟨rfl, rfl, c, ⟨_, hbody⟩, htext _ _ hbody, ?_⟩
    change c.code = y ++ owed.take room
    rw [List.take_of_length_le hfits, hcode]

/-- The reference compressor makes a body of all that it takes. -/
def refDeflates (htext : ∀ x c, body x = some c → c.text = x) :
    (refDeflate body).Deflates fun c => ∃ x, body x = some c where
  Sent := RefDeflate.Sent body
  init _ _ := ⟨rfl, rfl⟩
  process := by
    rintro ⟨taken, owed⟩ shut x y input room flush ⟨rfl, howed⟩ hshut
    change DeflateStep (refDeflate body) _ (RefDeflate.Sent body) shut taken y input flush
      (refDeflateStep body ⟨taken, owed⟩ input room flush)
    -- nothing is taken or given
    have hrefused (hstay : RefDeflate.Sent body ⟨taken, owed⟩ (shut || decide
        (flush = .finish ∧ 0 = input.length)) taken y) : DeflateStep (refDeflate body)
          (fun c => ∃ x, body x = some c) (RefDeflate.Sent body) shut taken y input flush
            ⟨.streamError, ⟨taken, owed⟩, 0, []⟩ := by
      refine ⟨fun _ => ?_, by simp⟩
      rwa [List.take_zero, List.append_nil, List.append_nil]
    unfold refDeflateStep
    cases owed with
    | some owed =>
      obtain ⟨rfl, c, hbody, hcode⟩ := howed
      by_cases hflush : flush = .finish
      · obtain rfl := hshut rfl
        have hstep := @RefDeflate.give_step _ htext taken y [] owed true c
          (by rwa [List.append_nil]) hcode room
        rw [List.append_nil] at hstep
        dsimp only
        rwa [if_pos hflush, hflush]
      · dsimp only
        rw [if_neg hflush]
        exact hrefused ⟨rfl, by simp, c, hbody, hcode⟩
    | none =>
      obtain rfl : y = [] := howed
      by_cases hflush : flush = .finish
      · dsimp only
        rw [if_pos hflush]
        cases hbody : body (taken ++ input) with
        | none => exact hrefused ⟨rfl, rfl⟩
        | some c =>
          rw [hflush]
          exact RefDeflate.give_step htext hbody (List.nil_append _) room
      · dsimp only
        rw [if_neg hflush]
        refine ⟨fun _ => ⟨by simp, rfl⟩, fun h => ?_⟩
        dsimp only at h
        split_ifs at h

end Contract

/-! ## One block under the fixed code -/

def codeBits (width code : ℕ) : List Bool :=
  (List.range width).map fun i => code.testBit (width - 1 - i)

def literalBits (b : UInt8) : List Bool :=
  if b < 144 then codeBits 8 (0x30 + b.toNat) else codeBits 9 (0x100 + b.toNat)

/-- The last byte 258 times more: a length and a distance of 1. -/
def repeatBits : List Bool := codeBits 8 0xC5 ++ codeBits 5 0

/-- One last block under the fixed code, with repeats where all bytes are the same. -/
def fixedBits : List UInt8 → List Bool
  | [] => [true, true, false] ++ codeBits 7 0
  | b :: rest => [true, true, false] ++ literalBits b ++
      (if rest = List.replicate rest.length b then
        (List.replicate (rest.length / 258) repeatBits).flatten ++
          (List.replicate (rest.length % 258) (literalBits b)).flatten
      else rest.flatMap literalBits) ++ codeBits 7 0

def packBits : ℕ → List Bool → List UInt8
  | 0, _ => []
  | n + 1, bits =>
    UInt8.ofNat ((bits.take 8).foldr (fun b v => b.toNat + 2 * v) 0) :: packBits n (bits.drop 8)

def fixedCode (x : List UInt8) : List UInt8 :=
  packBits (((fixedBits x).length + 7) / 8) (fixedBits x)

@[simp] theorem length_codeBits (width code : ℕ) : (codeBits width code).length = width := by
  simp [codeBits]

theorem length_packBits (n : ℕ) (bits : List Bool) : (packBits n bits).length = n := by
  induction n generalizing bits with
  | zero => rfl
  | succ n ih => rw [packBits, List.length_cons, ih]

theorem length_fixedCode (x : List UInt8) :
    (fixedCode x).length = ((fixedBits x).length + 7) / 8 := length_packBits _ _

theorem fixedCode_pos (x : List UInt8) : 0 < (fixedCode x).length := by
  rw [length_fixedCode]
  cases x with
  | nil => decide
  | cons b rest =>
    have : 3 ≤ (fixedBits (b :: rest)).length := by
      simp only [fixedBits, List.length_append, List.length_cons]
      omega
    omega

/-- A run of zero bytes takes 13 bits for every 258 of them. -/
theorem length_fixedCode_zeros (n : ℕ) :
    (fixedCode (List.replicate (n + 1) 0)).length = (13 * (n / 258) + 8 * (n % 258) + 25) / 8 := by
  rw [length_fixedCode, List.replicate_succ, fixedBits, List.length_replicate, if_pos rfl]
  simp only [List.length_append, List.length_flatten, List.map_replicate, List.sum_replicate,
    length_codeBits, repeatBits, literalBits, smul_eq_mul, List.length_cons, List.length_nil]
  rw [if_pos (by decide), length_codeBits]
  omega

/-- The text is complete with the last byte of the body. -/
def fixedBody (x : List UInt8) : Progressive UInt8 where
  code := fixedCode x
  text := x
  ready p := if p < (fixedCode x).length then 0 else x.length
  ready_mono a b h := by
    dsimp only
    split_ifs <;> omega
  ready_full := by simp
  code_ne := List.length_pos_iff.mp (fixedCode_pos x)

example : (fixedBody [0x61]).code = [0x4B, 0x04, 0x00] := by decide

/-! ## Encoders over it -/

def WrapKind.codecId : WrapKind → CodecId
  | .none => codecDeflateRaw
  | .zlib => codecZlib
  | .gzip => codecGzip

section Encoders

variable (body : List UInt8 → Option (Progressive UInt8)) (inflate : MzStream) (wrap : WrapKind)

abbrev refCodec : CodecVtable := deflateVtable ⟨refDeflate body, inflate⟩ wrap.codecId wrap

def refEncoderOpts : EncoderOpts :=
  { structSize := encoderOptsSize, codec := wrap.codecId, level := levelDefault, flags := 0 }

def refEncoder : Encoder (refCodec body inflate wrap) where
  state := {
    mz := (⟨[], none⟩ : RefDeflate), mzCalled := false, encoder := true, wrap := wrap
    state := firstState wrap, level := mzDefaultLevel
    hdr := writeHdr wrap true mzDefaultLevel (List.replicate gzipHeaderLen 0)
    hdrLen := hdrLength wrap, hdrPos := 0, tail := List.replicate 8 0, tailLen := tailLength wrap
    tailPos := 0, checksum := checksumInit wrap, uncompressed := 0, gz := gzipHeaderInit
    decFlags := 0, probeMagic := false }
  opts := refEncoderOpts wrap
  finished := false

theorem refEncoder_new :
    encoderNew (fun _ => some (refCodec body inflate wrap)) (refEncoderOpts wrap) =
      .ok ⟨refCodec body inflate wrap, refEncoder body inflate wrap⟩ := by
  have hsize : ¬ encoderOptsSize < encoderOptsSize := by decide
  have hcan : (refCodec body inflate wrap).can canEncode = true := by
    show (canEncode ||| canDecode ||| canFlush) &&& canEncode != 0
    decide
  rw [encoderNew, if_neg (by simp [refEncoderOpts, hsize])]
  simp only [resolve, hcan, if_true]
  rfl

end Encoders

/-! ## Its encodings -/

section Encodings

variable {body : List UInt8 → Option (Progressive UInt8)} {s : DeflateState (refDeflate body)}
  {w : Window} {mode : Flush} {t : List UInt8}

/-- An open encoder that has gathered `t`. -/
structure Gathers (body : List UInt8 → Option (Progressive UInt8))
    (s : DeflateState (refDeflate body)) (t : List UInt8) : Prop where
  encoder : s.encoder = true
  state : s.state = .header ∨ s.state = .body
  engine : s.mz = (⟨t, none⟩ : RefDeflate)

theorem Gathers.engineCall (h : Gathers body s t) (hmode : mode ≠ .finish) (w : Window) :
    engineCall s w mode = ⟨if w.input.take mzClamp = [] then .bufError else .ok,
      (⟨t ++ w.input.take mzClamp, none⟩ : RefDeflate), (w.input.take mzClamp).length, []⟩ := by
  have hflush : engineFlush s mode ≠ .finish := by
    unfold engineFlush
    rw [if_neg (by simp [h.encoder])]
    cases mode <;> simp [toMzFlush] at hmode ⊢
  change refDeflateStep body s.mz _ _ _ = _
  rewrite [h.engine, refDeflateStep]
  dsimp only
  rewrite [if_neg hflush]
  rfl

/-- Before the end an encoder gathers its whole buffer, once there is room for the header. -/
theorem deflateProcess_gathers (h : Gathers body s t) (hmode : mode ≠ .finish)
    (hroom : s.hdrLen < s.hdrPos + w.room ∧ w.room ≠ 0) :
    (deflateProcess s w mode).1 = .needInput ∧
      Gathers body (deflateProcess s w mode).2.1 (t ++ w.input) ∧
        (deflateProcess s w mode).2.2.input = [] := by
  refine deflateProcess_keeps
    (fun x => ∃ t', Gathers body x.1 t' ∧ t' ++ x.2.input = t ++ w.input ∧ x.2.room ≠ 0 ∧
      (x.1.state = .header → x.1.hdrLen < x.1.hdrPos + x.2.room))
    (fun r => r.1 = .needInput ∧ Gathers body r.2.1 (t ++ w.input) ∧ r.2.2.input = [])
    ?_ ⟨t, h, rfl, hroom.2, fun _ => hroom.1⟩
  rintro ⟨s, w'⟩ ⟨t', hs, hall, hroom, hheader⟩
  dsimp only at hs hall hroom hheader
  unfold deflateStep
  dsimp only
  rcases hs.state with hstate | hstate
  · rw [hstate]
    dsimp only
    unfold headerStep
    rw [if_pos hs.encoder]
    have hlt := hheader hstate
    by_cases hmore : s.hdrPos < s.hdrLen
    · rw [if_pos hmore, if_neg hroom]
      refine ⟨t', ⟨hs.encoder, .inl hstate, hs.engine⟩, hall, ?_, fun _ => ?_⟩
      · rw [Window.put_room, List.length_singleton]
        omega
      · rw [Window.put_room, List.length_singleton]
        change s.hdrLen < s.hdrPos + 1 + (w'.room - 1)
        omega
    · rw [if_neg hmore]
      exact ⟨t', ⟨hs.encoder, .inr rfl, hs.engine⟩, hall, hroom, by simp⟩
  · rw [hstate]
    dsimp only
    unfold bodyStep
    rw [if_neg (fun hn => hroom hn.1), hs.engineCall hmode]
    dsimp only
    have hnext (r : MzStep (refDeflate body).State)
        (hr : r.state = (⟨t' ++ w'.input.take mzClamp, none⟩ : RefDeflate)) :
        Gathers body (afterEngine s w' r) (t' ++ w'.input.take mzClamp) :=
      ⟨by rw [afterEngine_encoder, hs.encoder], .inr (by rw [afterEngine_state, hstate]),
        by rw [afterEngine_mz, hr]⟩
    by_cases hnil : w'.input = []
    · have htake : w'.input.take mzClamp = [] := by rw [hnil, List.take_nil]
      rw [htake] at hnext ⊢
      rw [hnil, List.append_nil] at hall
      rw [List.append_nil, hall] at hnext
      rw [if_pos rfl, if_neg (by simp), if_neg (by simp), if_pos ⟨rfl, rfl⟩]
      refine ⟨?_, hnext _ (by rw [List.append_nil, hall]), ?_⟩
      · unfold stalled
        rw [if_neg (by simpa using hroom), if_pos (by simp [hnil]), if_pos hmode]
      · simp [hnil]
    · have htake : w'.input.take mzClamp ≠ [] := by
        simpa [List.take_eq_nil_iff, mzClamp] using hnil
      have hused : (w'.input.take mzClamp).length ≠ 0 := fun hz =>
        htake (List.eq_nil_of_length_eq_zero hz)
      rw [if_neg htake, if_neg (by simp), if_neg (by simp), if_neg (fun hn => hused hn.1)]
      refine ⟨_, hnext _ rfl, ?_, by simpa using hroom, fun hh => ?_⟩
      · have hsplit : w'.input.take mzClamp ++ w'.input.drop (w'.input.take mzClamp).length =
            w'.input := by
          rw [List.length_take]
          rcases le_total mzClamp w'.input.length with hle | hle
          · rw [min_eq_left hle, List.take_append_drop]
          · rw [min_eq_right hle, List.take_of_length_le hle, List.drop_length, List.append_nil]
        rw [Window.put_input, Window.take_input, List.append_assoc, hsplit, hall]
      · rw [afterEngine_state, hstate] at hh
        cases hh

/-- What is left to write: part of the header, the body and the trailer. -/
inductive Finishing (body : List UInt8 → Option (Progressive UInt8))
    (x : DeflateState (refDeflate body) × Window) : Prop
  | header {t : List UInt8} {c : Progressive UInt8} (gathers : Gathers body x.1 t)
      (payload : body (t ++ x.2.input) = some c) (short : x.2.input.length ≤ mzClamp)
      (room : (if x.1.state = .header then x.1.hdrLen - x.1.hdrPos else 0) + c.code.length +
        x.1.tailLen < x.2.room) : Finishing body x
  | owing {t owed : List UInt8} (encoder : x.1.encoder = true) (state : x.1.state = .body)
      (engine : x.1.mz = (⟨t, some owed⟩ : RefDeflate))
      (room : owed.length + x.1.tailLen < x.2.room) : Finishing body x
  | trailer (encoder : x.1.encoder = true) (state : x.1.state = .trailer)
      (room : x.1.tailLen ≤ x.1.tailPos + x.2.room) : Finishing body x
  | done (state : x.1.state = .done) : Finishing body x

/-- A turn of the body that gives what it owes. -/
theorem bodyStep_finishing {t owed : List UInt8} {used : ℕ} (henc : s.encoder = true)
    (hs : s.state = .body) (hroom : owed.length + s.tailLen < w.room)
    (hcall : engineCall s w .finish = RefDeflate.give t owed used (min w.room mzClamp)) :
    Turn (Finishing body) (fun r => r.1 = .streamEnd) (bodyStep s w .finish) := by
  have hstatus : (engineCall s w .finish).status = if owed.length ≤ min w.room mzClamp then
      MzStatus.streamEnd else .ok := congrArg MzStep.status hcall
  have hout : (engineCall s w .finish).out = owed.take (min w.room mzClamp) :=
    congrArg MzStep.out hcall
  have hstate : (engineCall s w .finish).state =
      (⟨t, some (owed.drop (min w.room mzClamp))⟩ : RefDeflate) := congrArg MzStep.state hcall
  unfold bodyStep
  rw [if_neg (by omega)]
  dsimp only
  generalize engineCall s w .finish = r at hstatus hout hstate
  obtain ⟨-, htail⟩ := afterEngine_lens s w r
  by_cases hfits : owed.length ≤ min w.room mzClamp
  · rw [if_pos hfits] at hstatus
    rw [if_pos hstatus]
    rw [List.take_of_length_le hfits] at hout
    split_ifs
    · refine .trailer ?_ rfl ?_
      · change (afterEngine s w r).encoder = true
        rw [afterEngine_encoder, henc]
      · change (afterEngine s w r).tailLen ≤ 0 + (w.room - r.out.length)
        rw [htail, hout]
        omega
    · exact rfl
  · rw [if_neg hfits] at hstatus
    have hlen : r.out.length = mzClamp := by
      rw [hout, List.length_take]
      omega
    have hne : r.out ≠ [] := by
      intro hnil
      rw [hnil] at hlen
      exact absurd hlen (by norm_num [mzClamp])
    rw [hstatus, if_neg (by simp), if_neg (by simp), if_neg (fun hn => hne hn.2)]
    have hengine : (afterEngine s w r).mz =
        (⟨t, some (owed.drop (min w.room mzClamp))⟩ : RefDeflate) := by
      rw [afterEngine_mz, hstate]
    refine .owing ?_ ?_ hengine ?_
    · rw [afterEngine_encoder, henc]
    · rw [afterEngine_state, hs]
    · rw [htail, Window.put_room, hlen, List.length_drop]
      change _ < w.room - mzClamp
      omega

/-- Under `ZU_FINISH`, with room for all of it, the stream ends. -/
theorem deflateProcess_finishes (h : Finishing body (s, w)) :
    (deflateProcess s w .finish).1 = .streamEnd := by
  refine deflateProcess_keeps (Finishing body) (fun r => r.1 = .streamEnd) ?_ h
  rintro ⟨s, w⟩ hx
  unfold deflateStep
  dsimp only
  cases hx with
  | done state =>
    rw [show s.state = .done from state]
    exact rfl
  | trailer encoder state room =>
    dsimp only at encoder state room
    rw [state]
    dsimp only
    unfold trailerStep
    rw [if_pos encoder]
    by_cases hmore : s.tailPos < s.tailLen
    · rw [if_pos hmore, if_neg (by omega)]
      refine .trailer encoder state ?_
      rw [Window.put_room, List.length_singleton]
      change s.tailLen ≤ s.tailPos + 1 + (w.room - 1)
      omega
    · rw [if_neg hmore]
      exact rfl
  | @owing t owed encoder state engine room =>
    dsimp only at encoder state engine room
    have hcall : engineCall s w .finish = RefDeflate.give t owed 0 (min w.room mzClamp) := by
      change refDeflateStep body s.mz _ _ (engineFlush s .finish) = _
      rewrite [engine, engineFlush, if_neg (by simp [encoder])]
      rfl
    rw [state]
    exact bodyStep_finishing encoder state room hcall
  | @header t c gathers payload short room =>
    dsimp only at gathers payload short room
    rcases gathers.state with hs | hs
    · rw [hs] at room ⊢
      dsimp only
      unfold headerStep
      rw [if_pos gathers.encoder]
      rw [if_pos rfl] at room
      by_cases hmore : s.hdrPos < s.hdrLen
      · rw [if_pos hmore, if_neg (by omega)]
        refine .header ⟨gathers.encoder, .inl hs, gathers.engine⟩ payload short ?_
        rw [if_pos hs, Window.put_room, List.length_singleton]
        change s.hdrLen - (s.hdrPos + 1) + _ + s.tailLen < w.room - 1
        omega
      · rw [if_neg hmore]
        refine .header ⟨gathers.encoder, .inr rfl, gathers.engine⟩ payload short ?_
        rw [if_neg (by simp)]
        change 0 + _ + s.tailLen < w.room
        omega
    · rw [hs] at room ⊢
      rw [if_neg (by simp)] at room
      have hcall : engineCall s w .finish = RefDeflate.give (t ++ w.input) c.code w.input.length
          (min w.room mzClamp) := by
        change refDeflateStep body s.mz _ _ (engineFlush s .finish) = _
        rewrite [gathers.engine, engineFlush, if_neg (by simp [gathers.encoder]),
          List.take_of_length_le short, refDeflateStep]
        dsimp only
        rewrite [if_pos (show toMzFlush .finish = .finish from rfl), payload]
        rfl
      exact bodyStep_finishing gathers.encoder hs (by omega) hcall

variable {inflate : MzStream} {wrap : WrapKind} {level : ℤ}
  {Body : Progressive UInt8 → Prop} {D : (refDeflate body).Deflates Body}
  {x : Encoding (refCodec body inflate wrap)}

/-- A buffer below 2 GiB. -/
def Showable {v : CodecVtable} (_ : Encoder v) (buf : Buffer) (_ : Flush) : Prop :=
  buf.unread.length ≤ mzClamp

theorem hdrLength_lt (wrap : WrapKind) : hdrLength wrap < 11 := by
  cases wrap <;> decide

theorem Gathers.next (h : Gathers body x.enc.state x.taken) (hopen : x.enc.finished = false)
    (hlen : DeflateState.hdrLen x.enc.state = hdrLength wrap) (part : List UInt8) :
    Gathers body (x.next (.ofParts part 11) .run).enc.state (x.taken ++ part) ∧
      (x.next (.ofParts part 11) .run).enc.finished = false ∧
      (x.next (.ofParts part 11) .run).taken = x.taken ++ part := by
  have hroom : DeflateState.hdrLen x.enc.state < DeflateState.hdrPos x.enc.state + 11 ∧ 11 ≠ 0 := by
    have := hdrLength_lt wrap
    omega
  have hwindow := Buffer.window_ofParts part 11
  obtain ⟨hst, hgathers, hspent⟩ := deflateProcess_gathers (w := (Buffer.ofParts part 11).window) h
    (show Flush.run ≠ .finish by simp) (by rwa [hwindow])
  obtain ⟨u, o, hm⟩ := deflateProcess_advances (E := refDeflate body) x.enc.state
    (Buffer.ofParts part 11).window .run
  obtain ⟨hnext, -⟩ := Encoding.next_calls (@encoderProcess_calls _ deflateProcess rfl x.enc
    (.ofParts part 11) .run (checkBuffer_ofParts _ _) hopen (by simp))
    (Prod.ext rfl (Prod.ext rfl hm.eq))
  have hall : part.take u = part := by
    rw [hm.eq, hwindow] at hspent
    exact List.take_of_length_le (List.drop_eq_nil_iff.mp hspent)
  have hin : (Buffer.ofParts part 11).window.input = part := by rw [hwindow]
  rw [hin] at hgathers
  rw [hnext]
  refine ⟨hgathers, ?_, ?_⟩
  · exact beq_eq_false_iff_ne.mpr (fun hend => Status.noConfusion (hst.symm.trans hend))
  · dsimp only
    rw [Buffer.unread_ofParts, hall]

/-- A payload with a body can be encoded, whatever its buffers. -/
theorem refDeflate_encodes {e : Encoder (refCodec body inflate wrap)}
    (hstart : WritesOut D level none (Encoding.start e)) (parts : List (List UInt8))
    (hparts : ∀ part ∈ parts, part.length ≤ mzClamp) {last : List UInt8}
    (hlast : last.length ≤ mzClamp) {c : Progressive UInt8}
    (hx : Encoding.SuppliedBy Showable e none x) (hopen : x.enc.finished = false)
    (hgathers : Gathers body x.enc.state x.taken)
    (hbody : body (x.taken ++ (parts.flatten ++ last)) = some c) :
    ∃ b, Encoding.EncodesBy Showable e (x.taken ++ (parts.flatten ++ last)) b := by
  induction parts generalizing x with
  | nil =>
    have hkeeps := (suppliedBy_writesOut hstart (hx.mono fun _ _ _ h => not_cuts_of_le h)).keeps
    let buf : Buffer := .ofParts last (hdrLength wrap + c.code.length + tailLength wrap + 1)
    have hpayload : body (x.taken ++ buf.window.input) = some c := by
      rwa [Buffer.window_ofParts]
    have hfinishing : Finishing body (x.enc.state, buf.window) := by
      refine .header hgathers hpayload ?_ ?_
      · rwa [Buffer.window_ofParts]
      · rw [Buffer.window_ofParts, hkeeps.hdrLen, hkeeps.tailLen]
        dsimp only
        split_ifs <;> omega
    have hend : (encoderProcess x.enc buf .finish).1 = .streamEnd := by
      rw [@encoderProcess_calls _ deflateProcess rfl x.enc buf .finish (checkBuffer_ofParts _ _)
        hopen (by simp)]
      exact deflateProcess_finishes hfinishing
    exact ⟨_, none, x, buf, hx, by simp, by simpa [Showable, buf] using hlast, hend, by simp [buf],
      rfl⟩
  | cons part parts ih =>
    have hkeeps := (suppliedBy_writesOut hstart (hx.mono fun _ _ _ h => not_cuts_of_le h)).keeps
    obtain ⟨hnext, hopen', htaken⟩ := hgathers.next hopen hkeeps.hdrLen part
    have hshow : Showable x.enc (.ofParts part 11) .run := by
      simpa [Showable] using hparts part (by simp)
    rw [List.flatten_cons, List.append_assoc, ← List.append_assoc x.taken, ← htaken] at hbody ⊢
    exact ih (fun p hp => hparts p (by simp [hp])) (.more hx _ (by simp) hshow) hopen'
      (htaken ▸ hnext) hbody

end Encodings

end Zukomp
