import Zukomp.Block.Process
import Zukomp.Core.Feeding

/-! # Decoding one lz4 block

The contract of liblz4's block functions, and the decoder's two phases over one valid block:
it gathers the block, and then drains the text it decodes to.
-/

namespace Zukomp

open Library

/-- What liblz4 documents. `Block b x` says that `b` is a valid block of the text `x`. -/
structure Lz4Blocks (Z : Lz4) where
  Block : List UInt8 → List UInt8 → Prop
  fast : ∀ accel {x}, x.length ≤ lz4MaxInputSize →
    ∃ b, Z.compressFast accel x (lz4CompressBound x.length) = some b ∧ Block b x ∧
      b.length ≤ lz4CompressBound x.length
  hc : ∀ level {x}, x.length ≤ lz4MaxInputSize →
    ∃ b, Z.compressHC level x (lz4CompressBound x.length) = some b ∧ Block b x ∧
      b.length ≤ lz4CompressBound x.length
  -- a token byte at least, and at most 255 bytes of text for a byte of the block
  ne_nil : ∀ {b x}, Block b x → b ≠ []
  expands : ∀ {b x}, Block b x → x.length ≤ 255 * b.length
  safe : ∀ {b x cap}, Block b x → b.length ≤ intMax → cap ≤ intMax → x.length ≤ cap →
    Z.decompressSafe b cap = some x
  short : ∀ {b x cap}, Block b x → b.length ≤ intMax → cap ≤ intMax → cap < x.length →
    Z.decompressSafe b cap = none
  capped : ∀ {b x cap}, Block b x → b.length ≤ intMax → cap ≤ intMax →
    Z.decompressPartial b cap = some (x.take cap)

/-! ## Blocks of literals -/

/-- What liblz4 makes of a source in which it finds no match: all of it as literals. -/
def lz4Literals (x : List UInt8) : List UInt8 :=
  if x.length < 15 then UInt8.ofNat (16 * x.length) :: x
  else 0xF0 :: (List.replicate ((x.length - 15) / 255) 255 ++
    UInt8.ofNat ((x.length - 15) % 255) :: x)

/-- The text of a block of literals, whose length is 15 and the bytes up to one below 255. -/
def lz4LiteralRun : List UInt8 → Option (List UInt8)
  | [] => none
  | token :: rest =>
    if token = 0xF0 then match rest.dropWhile (· == 255) with
      | [] => none
      | e :: text =>
        if text.length = 15 + 255 * (rest.takeWhile (· == 255)).length + e.toNat then some text
        else none
    else if token.toNat = 16 * rest.length then some rest else none

theorem lz4Literals_length (x : List UInt8) :
    (lz4Literals x).length = if x.length < 15 then x.length + 1
      else x.length + (x.length - 15) / 255 + 2 := by
  unfold lz4Literals
  split_ifs
  · simp
  · simp only [List.length_cons, List.length_append, List.length_replicate]
    omega

theorem lz4LiteralRun_literals (x : List UInt8) : lz4LiteralRun (lz4Literals x) = some x := by
  unfold lz4Literals
  split_ifs with hshort
  · have htoken : (UInt8.ofNat (16 * x.length)).toNat = 16 * x.length := by
      rw [UInt8.toNat_ofNat']
      omega
    have hne : UInt8.ofNat (16 * x.length) ≠ 0xF0 := fun h => by
      have := congrArg UInt8.toNat h
      rw [htoken] at this
      simp only [UInt8.reduceToNat] at this
      omega
    rw [lz4LiteralRun, if_neg hne, if_pos htoken]
  · have hext : (UInt8.ofNat ((x.length - 15) % 255)).toNat = (x.length - 15) % 255 := by
      rw [UInt8.toNat_ofNat']
      omega
    have hlast : (UInt8.ofNat ((x.length - 15) % 255) == 255) = false := by
      rw [beq_eq_false_iff_ne]
      intro h
      have := congrArg UInt8.toNat h
      rw [hext] at this
      simp only [UInt8.reduceToNat] at this
      omega
    have hall : ∀ a ∈ List.replicate ((x.length - 15) / 255) (255 : UInt8), (a == 255) = true :=
      fun a ha => by simp [List.eq_of_mem_replicate ha]
    rw [lz4LiteralRun, if_pos rfl, List.dropWhile_append_of_pos hall,
      List.takeWhile_append_of_pos hall, List.dropWhile_cons_of_neg (by simp [hlast]),
      List.takeWhile_cons_of_neg (by simp [hlast])]
    dsimp only
    rw [if_pos]
    rw [List.append_nil, List.length_replicate, hext]
    omega

def refLz4 : Lz4 where
  compressFast _ x cap := if (lz4Literals x).length ≤ cap then some (lz4Literals x) else none
  compressHC _ x cap := if (lz4Literals x).length ≤ cap then some (lz4Literals x) else none
  decompressSafe b cap := (lz4LiteralRun b).filter (·.length ≤ cap)
  decompressPartial b cap := (lz4LiteralRun b).map (·.take cap)

theorem lz4Literals_le_bound {x : List UInt8} (hx : x.length ≤ lz4MaxInputSize) :
    (lz4Literals x).length ≤ lz4CompressBound x.length := by
  rw [lz4Literals_length, lz4CompressBound, if_neg (Nat.not_lt.mpr hx)]
  split_ifs <;> omega

def refLz4Blocks : Lz4Blocks refLz4 where
  Block c y := c = lz4Literals y
  fast _ y hy := ⟨_, if_pos (lz4Literals_le_bound hy), rfl, lz4Literals_le_bound hy⟩
  hc _ y hy := ⟨_, if_pos (lz4Literals_le_bound hy), rfl, lz4Literals_le_bound hy⟩
  ne_nil := by
    rintro c y rfl h
    have hlen := congrArg List.length h
    rw [lz4Literals_length, List.length_nil] at hlen
    split_ifs at hlen
  expands := by
    rintro c y rfl
    rw [lz4Literals_length]
    split_ifs <;> omega
  safe := by
    rintro c y cap rfl - - hcap
    simp [refLz4, lz4LiteralRun_literals, hcap]
  short := by
    rintro c y cap rfl - - hcap
    simp [refLz4, lz4LiteralRun_literals, hcap]
  capped := by
    rintro c y cap rfl - -
    simp [refLz4, lz4LiteralRun_literals]

theorem refLz4_compress (level : ℤ) {x : List UInt8} (hx : x.length ≤ lz4MaxInputSize) :
    lz4bCompress refLz4 level x (lz4CompressBound x.length) = some (lz4Literals x) := by
  have hle := lz4Literals_le_bound hx
  unfold lz4bCompress
  dsimp only [refLz4]
  split_ifs <;> rfl

/-! ## The two routes to the text -/

variable {Z : Lz4} {b x : List UInt8}

theorem lz4CompressBound_le (n : ℕ) : lz4CompressBound n ≤ 0x7E7E7E8E := by
  unfold lz4CompressBound lz4MaxInputSize
  split_ifs <;> omega

theorem lz4bExact_block (L : Lz4Blocks Z) (h : L.Block b x) (hb : b.length ≤ intMax)
    (hx : x.length ≤ intMax) : lz4bExact Z b x.length = some x := by
  simp [lz4bExact, L.safe h hb hx le_rfl]

theorem lz4bCeiling_block (L : Lz4Blocks Z) (h : L.Block b x) (hx : x.length ≤ intMax)
    {s : Lz4bState} (hs : s.input = b) (hmax : s.maxOutput = 0 ∨ x.length ≤ s.maxOutput.toNat) :
    x.length ≤ (lz4bCeiling s).1 ∧ 0 < (lz4bCeiling s).1 ∧ (lz4bCeiling s).1 ≤ intMax := by
  have hexpands := L.expands h
  have hpos : 0 < intMax := by norm_num [intMax]
  unfold lz4bCeiling
  rw [hs]
  dsimp only
  split_ifs with hlimited
  · have hne : s.maxOutput.toNat ≠ 0 := fun h0 => hlimited.1 (UInt64.toNat_inj.mp h0)
    have hle := hmax.resolve_left hlimited.1
    omega
  · omega

/-- A try decodes the block, or finds it well formed up to a capacity below the ceiling and
goes on at a larger one. -/
theorem lz4bTry_block (L : Lz4Blocks Z) (h : L.Block b x) (hb : b.length ≤ intMax)
    {ceiling : ℕ} (hx : x.length ≤ ceiling) (hceil : ceiling ≤ intMax) (limited : Bool)
    {cap : ℕ} (hpos : 0 < cap) (hcap : cap ≤ ceiling) :
    Turn (fun cap' => (0 < cap' ∧ cap' ≤ ceiling) ∧ ceiling - cap' < ceiling - cap)
      (fun r => r = .ok x) (lz4bTry Z b ceiling limited cap) := by
  unfold lz4bTry
  rcases Nat.lt_or_ge cap x.length with hlt | hge
  · have hlen : (x.take cap).length = cap := by
      rw [List.length_take]
      omega
    rw [L.short h hb (by omega) hlt, L.capped h hb (by omega)]
    dsimp only
    rw [if_neg (by omega), if_neg (by omega), turn_inl]
    split_ifs <;> omega
  · rw [L.safe h hb (by omega) hge]
    rfl

/-- The search finds the text of a valid block that `max_output` admits. -/
theorem lz4bSearch_block (L : Lz4Blocks Z) (h : L.Block b x) (hb : b.length ≤ intMax)
    (hx : x.length ≤ intMax) {s : Lz4bState} (hs : s.input = b)
    (hmax : s.maxOutput = 0 ∨ x.length ≤ s.maxOutput.toNat) : lz4bSearch Z s = .ok x := by
  obtain ⟨hle, hpos, hceil⟩ := lz4bCeiling_block L h hx hs hmax
  have hne := List.length_pos_iff.mpr (L.ne_nil h)
  unfold lz4bSearch
  dsimp only
  rw [hs]
  refine runLoop_rule (fun cap => 0 < cap ∧ cap ≤ (lz4bCeiling s).1)
    (fun r => r = Except.ok x) (fun cap => (lz4bCeiling s).1 - cap)
    (fun cap hcap => lz4bTry_block L h hb hle hceil _ hcap.1 hcap.2) ?_ ?_
  · omega
  · omega

/-! ## The phases -/

/-- What the options must allow: no ceiling, and no other expected size than the text's. -/
structure Lz4bSuits (x : List UInt8) (s : Lz4bState) : Prop where
  decoder : s.encoder = false
  noMax : s.maxOutput = 0
  expected : s.hasExpected = true → s.expected.toNat = x.length

/-- A decoder that has read `p` bytes of the block and written `q` of the text. -/
inductive Lz4bAt (b x : List UInt8) (s : Lz4bState) : Bool → ℕ → ℕ → Prop
  | gathering {p : ℕ} (suits : Lz4bSuits x s) (done : s.done = false)
      (input : s.input = b.take p) (p_le : p ≤ b.length) (p_max : p ≤ lz4MaxInputSize) :
      Lz4bAt b x s false p 0
  | draining {last : Bool} {q : ℕ} (done : s.done = true) (stage : s.stage = x.drop q)
      (q_le : q ≤ x.length) (fits : b.length ≤ lz4MaxInputSize) : Lz4bAt b x s last b.length q

/-- The call offers more than the largest block the decoder gathers. -/
def lz4bFails (s : Lz4bState) (w : Window) : Prop :=
  s.done = false ∧ lz4MaxInputSize < s.input.length + w.input.length

theorem lz4bGather_fits {s : Lz4bState} {w : Window}
    (h : s.input.length + w.input.length ≤ lz4MaxInputSize) :
    lz4bGather s w = (.ok, { s with input := s.input ++ w.input }, w.take w.input.length) := by
  unfold lz4bGather
  by_cases hnil : w.input = []
  · simp [hnil]
  · have hword : s.input.length + w.input.length < wordSize :=
      h.trans_lt (by norm_num [lz4MaxInputSize])
    rw [if_neg hnil, sizeAdd_ok hword]
    dsimp only
    rw [if_neg (by omega)]

theorem lz4bGather_over {s : Lz4bState} {w : Window} (hinput : s.input.length ≤ lz4MaxInputSize)
    (h : lz4MaxInputSize < s.input.length + w.input.length)
    (hword : s.input.length + w.input.length < wordSize) :
    lz4bGather s w = (if s.encoder then .errInvalidArgument else .errInvalidData, s, w) := by
  unfold lz4bGather
  rw [if_neg (fun hnil => by rw [hnil, List.length_nil] at h; omega), sizeAdd_ok hword]
  dsimp only
  rw [if_pos h]

theorem lz4bGather_fails {s : Lz4bState} {w : Window} (henc : s.encoder = false)
    (hinput : s.input.length ≤ lz4MaxInputSize)
    (h : lz4MaxInputSize < s.input.length + w.input.length)
    (hword : s.input.length + w.input.length < wordSize) :
    lz4bGather s w = (.errInvalidData, s, w) := by
  rw [lz4bGather_over hinput h hword, if_neg (by simp [henc])]

variable {s : Lz4bState} {w : Window} {p q : ℕ} {last : Bool}

/-- Draining writes the text as far as the room goes. -/
theorem lz4bDrain_answers {At : Lz4bState → Bool → ℕ → ℕ → Prop} {fails : Prop} {last' : Bool}
    (hstage : s.stage = x.drop q) (hq : q ≤ x.length)
    (hat : ∀ s' q', s'.done = s.done → s'.stage = x.drop q' → q' ≤ x.length →
      At s' last' b.length q') :
    Answer ⟨b, x⟩ At (fun _ => False) fails b.length q w last' (lz4bDrain s w) := by
  have hmoved : w.Moved 0 (s.stage.take w.room) (w.put (s.stage.take w.room)) :=
    .put (by simp)
  have hlen : (s.stage.take w.room).length = min w.room (x.length - q) := by
    rw [List.length_take, hstage, List.length_drop]
  have hwrites : Coding.Writes ⟨b, x⟩ q (s.stage.take w.room) := by
    rw [hstage]
    exact List.take_prefix ..
  unfold lz4bDrain lz4Drain
  dsimp only
  split_ifs with hnil
  · rw [List.drop_eq_nil_iff, hstage, List.length_drop] at hnil
    refine .ended hmoved hwrites rfl ?_
    change _ = x.length
    omega
  · rw [List.drop_eq_nil_iff, hstage, List.length_drop, not_le] at hnil
    refine .full hmoved hwrites (hat _ _ rfl ?_ (by omega)) ?_ (.inl ?_)
    · change s.stage.drop w.room = _
      rw [hlen, Nat.min_eq_left hnil.le, hstage, List.drop_drop]
    · rw [Window.put_room, hlen]
      omega
    · change _ < x.length
      omega

/-- Before `ZU_FINISH` the block is gathered as far as it is shown. -/
theorem lz4bHold_answers {p : ℕ} (suits : Lz4bSuits x s) (done : s.done = false)
    (input : s.input = b.take p) (p_max : p ≤ lz4MaxInputSize) (hb : b.length < wordSize)
    (hp : p ≤ b.length) (hsh : Coding.Shows ⟨b, x⟩ p w.input False) :
    Answer ⟨b, x⟩ (Lz4bAt b x) (fun _ => False) (lz4bFails s w) p 0 w false (lz4bHold s w) ∧
      (lz4bFails s w → (lz4bHold s w).1 = .errInvalidData) := by
  obtain ⟨hgather, hle, -⟩ := hsh.gathered hp
  have hlen : s.input.length = p := by
    rw [input, List.length_take]
    omega
  unfold lz4bHold
  by_cases hf : lz4MaxInputSize < s.input.length + w.input.length
  · rw [lz4bGather_fails suits.decoder (by omega) hf (by simp only at hle; omega)]
    exact ⟨.failed ⟨done, hf⟩, fun _ => rfl⟩
  · rw [lz4bGather_fits (by omega)]
    refine ⟨.hungry (.take le_rfl) .nil ?_ rfl (by simp) False.elim, fun h => absurd h.2 hf⟩
    exact .gathering ⟨suits.decoder, suits.noMax, suits.expected⟩ done (by rw [input, hgather])
      hle (by omega)

/-- Under `ZU_FINISH` the block is complete, and its text is in the window or staged. -/
theorem lz4bFinish_answers (L : Lz4Blocks Z) (hblock : L.Block b x) (hx : x.length ≤ intMax)
    (hb : b.length < wordSize) {p : ℕ} (suits : Lz4bSuits x s) (done : s.done = false)
    (input : s.input = b.take p) (p_max : p ≤ lz4MaxInputSize)
    (hp : p ≤ b.length) (hsh : Coding.Shows ⟨b, x⟩ p w.input True) :
    Answer ⟨b, x⟩ (Lz4bAt b x) (fun _ => False) (lz4bFails s w) p 0 w true
        (lz4bDecoderProcess Z s w .finish) ∧
      (lz4bFails s w → (lz4bDecoderProcess Z s w .finish).1 = .errInvalidData) := by
  obtain ⟨hgather, -, hend⟩ := hsh.gathered hp
  have hne := L.ne_nil hblock
  have hall : s.input ++ w.input = b := by
    rw [input, hgather, hend trivial, List.take_length]
  have hlen : s.input.length + w.input.length = b.length := by
    rw [← List.length_append, hall]
  have hinput : s.input.length = p := by
    rw [input, List.length_take]
    omega
  have hread : p + w.input.length = b.length := by omega
  -- the staged text, drained after the rest of the block has been read
  have hstaged (hfits : b.length ≤ lz4MaxInputSize) :
      Answer ⟨b, x⟩ (Lz4bAt b x) (fun _ => False) (lz4bFails s w) p 0 w true
        (lz4bDrain ({ s with input := s.input ++ w.input }.produce x)
          (w.take w.input.length)) := by
    refine Answer.after (.take le_rfl) .nil ?_
    rw [hread]
    exact lz4bDrain_answers rfl (Nat.zero_le _) fun _ _ hd hs hq => .draining hd hs hq hfits
  unfold lz4bDecoderProcess
  rw [if_neg (by simp [done]), if_neg (by simp)]
  by_cases hf : lz4MaxInputSize < b.length
  · have hfail : lz4bFails s w := ⟨done, by omega⟩
    have hanswer {r : Status × Lz4bState × Window} (hr : r = (.errInvalidData, s, w)) :
        Answer ⟨b, x⟩ (Lz4bAt b x) (fun _ => False) (lz4bFails s w) p 0 w true r ∧
          (lz4bFails s w → r.1 = .errInvalidData) := by
      rw [hr]
      exact ⟨.failed hfail, fun _ => rfl⟩
    have hgathers := lz4bGather_fails (w := w) suits.decoder (by omega) (by omega) (by omega)
    apply hanswer
    by_cases hexp : s.hasExpected = true
    · rw [if_pos hexp, if_neg (by simp [suits.noMax]),
        if_neg (by rw [suits.expected hexp]; omega)]
      split_ifs with hone hbad
      · rfl
      · refine absurd (.inr ?_) hbad
        rw [hone.1, List.nil_append] at hall
        rwa [hall]
      · rw [hgathers]
    · rw [if_neg hexp, hgathers]
  · have hfits : b.length ≤ lz4MaxInputSize := by omega
    have hint : b.length ≤ intMax := hfits.trans (by norm_num [lz4MaxInputSize, intMax])
    refine ⟨?_, fun h => absurd h.2 (by omega)⟩
    have hgathers := lz4bGather_fits (s := s) (w := w) (by omega)
    by_cases hexp : s.hasExpected = true
    · have hexact := lz4bExact_block L hblock hint hx
      rw [if_pos hexp, if_neg (by simp [suits.noMax]),
        if_neg (by rw [suits.expected hexp]; omega), suits.expected hexp]
      by_cases hone : s.input = [] ∧ x.length ≤ w.room
      · have hw : w.input = b := by rw [← hall, hone.1, List.nil_append]
        rw [if_pos hone, hw, if_neg (by rintro (h | h); exacts [hne h, hf h]), hexact]
        have hp0 : p = 0 := by rw [← hinput, hone.1, List.length_nil]
        refine .ended (u := b.length) (o := x) ⟨by rw [hw], hone.2, rfl⟩ ?_ ?_ (by simp)
        · exact List.prefix_rfl
        · simp [hp0]
      · rw [if_neg hone, hgathers]
        dsimp only
        rw [if_neg (by rw [hall]; exact hne), hall, suits.expected hexp, hexact]
        have := hstaged hfits
        rwa [hall] at this
    · rw [if_neg hexp, hgathers]
      dsimp only
      rw [if_neg (by rw [hall]; exact hne), lz4bSearch_block L hblock hint hx
        (s := { s with input := s.input ++ w.input }) hall (.inl suits.noMax)]
      exact hstaged hfits

/-- A call of the decoder over a valid block answers for the position it is at. -/
theorem lz4bDecoder_answers (L : Lz4Blocks Z) (hblock : L.Block b x) (hx : x.length ≤ intMax)
    (hb : b.length < wordSize) {mode : Flush} (h : Lz4bAt b x s last p q) (hmode : mode ≠ .flush)
    (hsh : Coding.Shows ⟨b, x⟩ p w.input (mode = .finish)) :
    Answer ⟨b, x⟩ (Lz4bAt b x) (fun _ => False) (lz4bFails s w) p q w (mode == .finish)
        (lz4bDecoderProcess Z s w mode) ∧
      (lz4bFails s w → (lz4bDecoderProcess Z s w mode).1 = .errInvalidData) := by
  cases h with
  | draining done stage q_le fits =>
    unfold lz4bDecoderProcess
    rw [if_pos done]
    refine ⟨?_, fun hf => by simp [lz4bFails, done] at hf⟩
    exact lz4bDrain_answers stage q_le fun _ _ hd hs hq => .draining (hd.trans done) hs hq fits
  | gathering suits done input p_le p_max =>
    by_cases hfin : mode = .finish
    · subst hfin
      exact lz4bFinish_answers L hblock hx hb suits done input p_max p_le (by simpa using hsh)
    · have heq : lz4bDecoderProcess Z s w mode = lz4bHold s w := by
        rw [lz4bDecoderProcess, if_neg (by simp [done]), if_pos hfin]
      rw [heq, beq_eq_false_iff_ne.mpr hfin]
      exact lz4bHold_answers suits done input p_max hb p_le (by simpa [hfin] using hsh)

/-- The decoder over a valid block, as a decoder of that stream. -/
def lz4BlockDecoder (L : Lz4Blocks Z) (hblock : L.Block b x) (hx : x.length ≤ intMax)
    (hb : b.length < wordSize) : StreamDecoder (lz4BlockCodec Z) ⟨b, x⟩ where
  process := lz4bDecoderProcess Z
  lifted := lz4BlockCodec_decodes Z
  At := Lz4bAt b x
  Stall _ := False
  Fails s w _ := lz4bFails s w
  Idles := True
  answers h _ hmode hsh := (lz4bDecoder_answers L hblock hx hb h hmode hsh).1.keepsPlace
  fails h _ hmode hsh hf := (lz4bDecoder_answers L hblock hx hb h hmode hsh).2 hf
  bounds h := by
    cases h with
    | gathering _ _ _ p_le _ => exact ⟨p_le, Nat.zero_le _⟩
    | draining _ _ q_le _ => exact ⟨le_rfl, q_le⟩
  stall_lt := False.elim

end Zukomp
