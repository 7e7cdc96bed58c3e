import Zukomp.Core.Closing
import Zukomp.Deflate.Format
import Zukomp.Deflate.Turns

/-! # A decoder's place in its stream

`Phase` relates a decoder's state to a position in the member it is reading, or in the bytes
after the last.
-/

namespace Zukomp

open Library

variable {E : MzStream} {Valid : Progressive UInt8 → Prop}

/-- The running checksum and length, over the text decoded so far. -/
def Summed (s : DeflateState E) (text : List UInt8) : Prop :=
  s.wrap ≠ .none → s.checksum = s.wrap.checksumOf text ∧
    s.uncompressed = UInt64.ofNat text.length

/-- An engine that has not been called. -/
def FreshEngine (I : Inflates E Valid) (s : DeflateState E) : Prop :=
  s.mzCalled = false ∧ ∀ c, Valid c → I.At c s.mz .fresh 0 0

/-- A decoder `p` bytes into the member `m` with `q` bytes of its text delivered. `last`
says that the end of the stream has been announced. -/
inductive Phase (I : Inflates E Valid) (s : DeflateState E) (last : Bool) (m : Member)
    (post : List Member) (junk : List UInt8) : ℕ → ℕ → Prop
  | zlibHeader (state : s.state = .header) (wrap : s.wrap = .zlib) (noProbe : s.probeMagic = false)
      (engine : FreshEngine I s) (summed : Summed s []) (pos : s.hdrPos ≤ 2)
      (read : s.hdr.take s.hdrPos = m.head.take s.hdrPos) :
      Phase I s last m post junk s.hdrPos 0
  | gzipHeader {k : ℕ} (state : s.state = .header) (wrap : s.wrap = .gzip)
      (noProbe : s.probeMagic = false) (engine : FreshEngine I s) (summed : Summed s [])
      (pos : k < m.head.length) (awaits : s.gz.Awaits (m.head.drop k)) :
      Phase I s last m post junk k 0
  | body {p q : ℕ} {phase : MzPhase} (state : s.state = .body) (noProbe : s.probeMagic = false)
      (engine : I.At m.body s.mz phase p q) (called : phase = .fresh ↔ s.mzCalled = false)
      (finishing : phase = .finishing → last = true) (unended : ¬ m.body.Ended p q)
      (summed : Summed s (m.text.take q)) :
      Phase I s last m post junk (m.head.length + p) q
  | trailer {p q : ℕ} {phase : MzPhase} (state : s.state = .trailer) (wrap : s.wrap ≠ .none)
      (noProbe : s.probeMagic = false) (engine : I.At m.body s.mz phase p q)
      (summed : Summed s m.text) (pos : s.tailPos ≤ m.tail.length)
      (read : s.tail.take s.tailPos = m.tail.take s.tailPos) :
      Phase I s last m post junk (m.head.length + m.body.code.length + s.tailPos) m.text.length
  | memberEnd {p q : ℕ} {phase : MzPhase} (state : s.state = .memberEnd) (wrap : s.wrap ≠ .none)
      (engine : I.At m.body s.mz phase p q) (right : m.tail = s.wrap.tailOf m.text)
      (held : s.probeMagic = true → [0x1F] <+: Member.codes post ++ junk)
      (concat : s.probeMagic = true → concatenates s = true) :
      Phase I s last m post junk (m.code.length + if s.probeMagic then 1 else 0) m.text.length
  | committed {k : ℕ} (state : s.state = .header) (wrap : s.wrap = .gzip)
      (noProbe : s.probeMagic = false) (concat : concatenates s = true) (none : post = [])
      (right : m.tail = s.wrap.tailOf m.text) (begins : gzipMagic <+: junk) (pos : k ≤ junk.length)
      (error : s.gz.headerError (junk.drop k) = gzipHeaderInit.headerError junk) :
      Phase I s last m post junk (m.code.length + k) m.text.length

/-- What a decoder of the family keeps for good. -/
structure Decodes (wrap : WrapKind) (decFlags : UInt32) (s : DeflateState E) : Prop where
  encoder : s.encoder = false
  wrap_eq : s.wrap = wrap
  flags : s.decFlags = decFlags
  hdrLen : s.hdrLen = hdrLength wrap
  tailLen : s.tailLen = tailLength wrap
  tail : s.tail.length = 8
  hdr : 2 ≤ s.hdr.length

theorem Decodes.of_eq {wrap : WrapKind} {decFlags : UInt32} {s s' : DeflateState E}
    (hd : Decodes wrap decFlags s)
    (h : (s'.encoder, s'.wrap, s'.decFlags, s'.hdrLen, s'.tailLen) =
      (s.encoder, s.wrap, s.decFlags, s.hdrLen, s.tailLen))
    (htail : s'.tail.length = s.tail.length) (hhdr : s'.hdr.length = s.hdr.length) :
    Decodes wrap decFlags s' := by
  simp only [Prod.mk.injEq] at h
  obtain ⟨he, hw, hf, hh, ht⟩ := h
  exact ⟨he ▸ hd.encoder, hw ▸ hd.wrap_eq, hf ▸ hd.flags, hh ▸ hd.hdrLen, ht ▸ hd.tailLen,
    htail ▸ hd.tail, hhdr ▸ hd.hdr⟩

/-- A decoder that has read `p` bytes of the stream and delivered `q`. -/
def DeflateAt (I : Inflates E Valid) (wrap : WrapKind) (decFlags : UInt32) (ms : List Member)
    (junk : List UInt8) (s : DeflateState E) (last : Bool) (p q : ℕ) : Prop :=
  Decodes wrap decFlags s ∧ ∃ pre m post i j, ms = pre ++ m :: post ∧ Phase I s last m post junk i j ∧
    p = (Member.codes pre).length + i ∧ q = (Member.texts pre).length + j

/-- How a decoder of the family comes to the end of a stream: at a trailer that is wrong, at the
end of the last member, past a first magic byte that it held, or in the header of a member
that never begins. -/
inductive StreamEnds (wrap : WrapKind) (decFlags : UInt32) (ms : List Member)
    (junk : List UInt8) : Bool → Bool → ℕ → Bool → Status → Prop
  | checksum {waited last empty : Bool} {pre : List Member} {m : Member} (eq : ms = pre ++ [m])
      (wrong : m.tail ≠ wrap.tailOf m.text) :
      StreamEnds wrap decFlags ms junk waited last (Member.codes ms).length empty .errChecksum
  | ended {waited last empty : Bool} {pre : List Member} {m : Member} (eq : ms = pre ++ [m])
      (right : m.tail = wrap.tailOf m.text)
      (seen : wrap.MayFollow decFlags → empty = junk.isEmpty ∧ ¬ gzipMagic <+: junk)
      (alone : wrap.MayFollow decFlags → junk = [0x1F] → last = true ∧ waited = false) :
      StreamEnds wrap decFlags ms junk waited last (Member.codes ms).length empty .streamEnd
  | dropped {last : Bool} {pre : List Member} {m : Member} (eq : ms = pre ++ [m])
      (right : m.tail = wrap.tailOf m.text) (follow : wrap.MayFollow decFlags) {b : UInt8}
      {rest : List UInt8} (junk_eq : junk = 0x1F :: b :: rest) (other : b ≠ 0x8B) :
      StreamEnds wrap decFlags ms junk true last ((Member.codes ms).length + 1) false .streamEnd
  | held {pre : List Member} {m : Member} (eq : ms = pre ++ [m])
      (right : m.tail = wrap.tailOf m.text) (follow : wrap.MayFollow decFlags)
      (junk_eq : junk = [0x1F]) :
      StreamEnds wrap decFlags ms junk true true ((Member.codes ms).length + 1) true
        (if decFlags &&& decRejectTrailing ≠ 0 then .errTrailing else .streamEnd)
  | committed {waited last empty : Bool} {pre : List Member} {m : Member} (eq : ms = pre ++ [m])
      (right : m.tail = wrap.tailOf m.text) (follow : wrap.MayFollow decFlags)
      (begins : gzipMagic <+: junk) {read : ℕ} {st : Status}
      (read_le : (Member.codes ms).length ≤ read)
      (error : gzipHeaderInit.headerError junk = some st) :
      StreamEnds wrap decFlags ms junk waited last read empty st

/-- A decoder that has read past the last member without having begun another. -/
def holds (ms : List Member) (junk : List UInt8) (p : ℕ) : Bool :=
  decide ((Member.codes ms).length < p ∧ ¬ gzipMagic <+: junk)

/-- The stream as a decoder of the family goes through it. -/
def deflateCourse (I : Inflates E Valid) (wrap : WrapKind) (decFlags : UInt32) (ms : List Member)
    (junk : List UInt8) : Course (DeflateState E) where
  coding := tailedCoding ms junk
  At := DeflateAt I wrap decFlags ms junk
  Stall := TextReady ms
  waits := holds ms junk
  Ends := StreamEnds wrap decFlags ms junk

/-- The engine's input is clamped below the caller's under `ZU_FINISH`, and the engine
takes the end of the clamped input for the end of the stream. -/
def Starved (mode : Flush) (x : DeflateState E × Window) : Prop :=
  x.1.state = .body ∧ x.1.mzCalled = true ∧ mode = .finish ∧ mzClamp < x.2.input.length ∧
    (engineCall x.1 x.2 mode).status = .dataError

/-- A call in which the engine is starved. -/
def Starves (s : DeflateState E) (w : Window) (mode : Flush) : Prop :=
  ∃ x, Reaches (deflateStep mode) (s, w) x ∧ Starved mode x

/-! ## Checksums in pieces -/

theorem checksumUpdate_checksumOf {wrap : WrapKind} (h : wrap ≠ .none) (a b : List UInt8) :
    checksumUpdate wrap (wrap.checksumOf a) b = wrap.checksumOf (a ++ b) := by
  unfold checksumUpdate
  split_ifs with hb
  · rw [hb, List.append_nil]
  · cases wrap with
    | none => exact absurd rfl h
    | zlib =>
      simp only [WrapKind.checksumOf, ← mzAdler32_one]
      exact mzAdler32_append (t := (1, 0)) ⟨by norm_num, by norm_num⟩ a b
    | gzip => exact mzCrc32_append 0 a b

theorem checksumInit_eq (wrap : WrapKind) : checksumInit wrap = wrap.checksumOf [] := by
  cases wrap <;> simp [checksumInit, WrapKind.checksumOf, adler32, adlerPack]

theorem Summed.afterEngine {s : DeflateState E} (henc : s.encoder = false) {text : List UInt8}
    (h : Summed s text) (w : Window) (r : MzStep E.State) :
    Summed (afterEngine s w r) (text ++ r.out) := by
  unfold Zukomp.afterEngine
  dsimp only
  split_ifs with hw
  · exact fun hne => absurd hw hne
  · intro _
    obtain ⟨hck, hlen⟩ := h hw
    refine ⟨?_, ?_⟩
    · simp only [covered, henc, Bool.false_eq_true, if_false, hck]
      exact checksumUpdate_checksumOf hw text r.out
    · simp [covered, henc, hlen, UInt64.ofNat_add]

/-! ## Turns outside the body -/

theorem take_set_of_drop {l t rest : List UInt8} {k : ℕ} {b : UInt8} (hl : k < l.length)
    (hr : l.take k = t.take k) (ht : t.drop k = b :: rest) :
    (l.set k b).take (k + 1) = t.take (k + 1) := by
  have hk : k < t.length := by
    by_contra h
    rw [List.drop_eq_nil_of_le (by omega)] at ht
    cases ht
  have hb : t[k] = b := by
    have := List.drop_eq_getElem_cons hk
    rw [ht] at this
    exact (List.cons.inj this).1.symm
  rw [List.take_succ_eq_append_getElem hk, List.take_succ_eq_append_getElem (by simpa using hl), hb,
    List.take_set, List.set_eq_of_length_le (by simp), hr]
  simp

/-- What a turn owes at `(p, q)`: to keep the place in the stream, or to answer. -/
def Keeps (I : Inflates E Valid) (wrap : WrapKind) (decFlags : UInt32) (ms : List Member)
    (junk : List UInt8) (fails : Prop) (p q : ℕ) (w : Window) (last : Bool) : Next E → Prop :=
  (deflateCourse I wrap decFlags ms junk).Carries fails p q w last

section Turns

variable {I : Inflates E Valid} {wrap : WrapKind} {decFlags : UInt32} {ms : List Member}
  {junk : List UInt8} {fails : Prop} {p q : ℕ} {s s' : DeflateState E} {w : Window} {last : Bool} {mode : Flush}

/-- Up to the end of the last member nothing past it is held. -/
theorem holds_of_le (hp : p ≤ (Member.codes ms).length) : holds ms junk p = false := by
  simp [holds, hp]

theorem holds_of_begins (hb : gzipMagic <+: junk) : holds ms junk p = false := by
  simp [holds, hb]

theorem keeps_stay (h : DeflateAt I wrap decFlags ms junk s' last p q) :
    Keeps I wrap decFlags ms junk fails p q w last (.inl (s', w)) :=
  ⟨0, [], .refl w, .nil, h, rfl⟩

theorem keeps_move {w' : Window} {u : ℕ} {o : List UInt8} (hm : w.Moved u o w')
    (hw : (tailedCoding ms junk).Writes q o)
    (h : DeflateAt I wrap decFlags ms junk s' last (p + u) (q + o.length))
    (hp : p + u ≤ (Member.codes ms).length) :
    Keeps I wrap decFlags ms junk fails p q w last (.inl (s', w')) := by
  refine ⟨u, o, hm, hw, h, ?_⟩
  show holds ms junk _ = holds ms junk _
  rw [holds_of_le hp, holds_of_le (by omega)]

theorem keeps_take (hw : w.input ≠ []) (hp : p < (Member.codes ms).length)
    (h : DeflateAt I wrap decFlags ms junk s' last (p + 1) q) :
    Keeps I wrap decFlags ms junk fails p q w last (.inl (s', w.take 1)) :=
  keeps_move (.take (List.length_pos_iff.mpr hw)) .nil h hp

theorem keeps_missing (hx : (tailedCoding ms junk).Shows p w.input (mode = .finish))
    (hw : w.input = []) (h : DeflateAt I wrap decFlags ms junk s (mode == .finish) p q)
    (hp : p < (Member.codes ms).length) (hstall : ¬ TextReady ms p) :
    Keeps I wrap decFlags ms junk fails p q w (mode == .finish) (.inr (missing mode, s, w)) := by
  have hmode : mode ≠ .finish := by
    intro hm
    have hall := hx.all hm
    rw [hw] at hall
    have := congrArg List.length hall.symm
    simp only [tailedCoding, Coding.followed_code, streamCoding, List.length_drop,
      List.length_append, List.length_nil] at this
    omega
  rw [missing, if_neg hmode]
  exact .hungry (.refl w) .nil h (by simpa using hmode) hw fun hs => absurd hs hstall

variable {pre post : List Member} {m : Member}

theorem enter_body (hs : s.state = .body) (henc : FreshEngine I s) (hsum : Summed s [])
    (hp : s.probeMagic = false) (hv : Valid m.body) : Phase I s last m post junk m.head.length 0 :=
  .body (p := 0) (q := 0) hs hp (henc.2 _ hv) (by simp [henc.1]) (by simp)
    (fun hend => m.body.code_ne (List.eq_nil_of_length_eq_zero hend.1.symm))
    (by rw [List.take_zero]; exact hsum)

/-- The stream as the members before, the current one and those to come. -/
structure Split (wrap : WrapKind) (Valid : Progressive UInt8 → Prop) (decFlags : UInt32)
    (ms : List Member) (junk : List UInt8) (pre : List Member) (m : Member)
    (post : List Member) : Prop where
  stream : wrap.TailedStream Valid decFlags ms junk
  eq : ms = pre ++ m :: post

namespace Split

theorem head (h : Split wrap Valid decFlags ms junk pre m post) : wrap.ValidHead m.head :=
  h.stream.heads m (by rw [h.eq]; simp)

theorem body (h : Split wrap Valid decFlags ms junk pre m post) : Valid m.body :=
  h.stream.bodies m (by rw [h.eq]; simp)

theorem tail_length (h : Split wrap Valid decFlags ms junk pre m post) :
    m.tail.length = tailLength wrap :=
  h.stream.tails m (by rw [h.eq]; simp)

theorem drop (h : Split wrap Valid decFlags ms junk pre m post) {i : ℕ} (hi : i ≤ m.code.length) :
    (tailedCoding ms junk).code.drop ((Member.codes pre).length + i) =
      m.code.drop i ++ (Member.codes post ++ junk) := by
  rw [h.eq, tailedCoding_drop pre m post junk hi]

theorem at_ (h : Split wrap Valid decFlags ms junk pre m post) (hd : Decodes wrap decFlags s) {i j : ℕ}
    (hp : Phase I s last m post junk i j) : DeflateAt I wrap decFlags ms junk s last
      ((Member.codes pre).length + i) ((Member.texts pre).length + j) :=
  ⟨hd, pre, m, post, i, j, h.eq, hp, rfl, rfl⟩

theorem lt (h : Split wrap Valid decFlags ms junk pre m post) {i : ℕ} (hi : i < m.code.length) :
    (Member.codes pre).length + i < (Member.codes ms).length := by
  rw [h.eq]
  simp only [Member.codes_append, Member.codes_cons, List.length_append]
  omega

theorem textReady (h : Split wrap Valid decFlags ms junk pre m post) (i : ℕ) :
    TextReady ms ((Member.codes pre).length + i) ↔ TextReady (m :: post) i := by
  rw [h.eq, textReady_append]

theorem not_textReady (h : Split wrap Valid decFlags ms junk pre m post) {i : ℕ}
    (hi : i < m.head.length ∨ m.head.length + m.body.code.length ≤ i ∧ i < m.code.length) :
    ¬ TextReady ms ((Member.codes pre).length + i) := by
  have hlen := m.length_code
  rw [h.textReady, TextReady, if_pos (by omega)]
  omega

theorem head_drop (h : Split wrap Valid decFlags ms junk pre m post) {i : ℕ} {b : UInt8}
    {rest : List UInt8} {last : Prop}
    (hx : (tailedCoding ms junk).Shows ((Member.codes pre).length + i) (b :: rest) last)
    (hi : i < m.head.length) : m.head.drop i = b :: (m.head.drop i).tail := by
  have hlen := m.length_code
  have hnext := hx.next
  rw [h.drop (by omega), Member.code, List.drop_append_of_le_length hi.le,
    List.drop_eq_getElem_cons hi] at hnext
  rw [List.drop_eq_getElem_cons hi, (List.cons_prefix_cons.mp hnext).1]
  rfl

end Split

end Turns

end Zukomp
