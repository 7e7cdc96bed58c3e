import Zukomp.Deflate.Process
import Zukomp.Library.Concat

/-! # The streams of the DEFLATE family

A stream is a list of members, each a wrapper header, a body and a trailer. A gzip
stream may have several; deflate-raw and zlib streams have one.
-/

namespace Zukomp

open Library

/-- A wrapper header, a DEFLATE body and a trailer. -/
structure Member where
  head : List UInt8
  body : Progressive UInt8
  tail : List UInt8

namespace Member

def code (m : Member) : List UInt8 := m.head ++ (m.body.code ++ m.tail)
def text (m : Member) : List UInt8 := m.body.text

def codes (ms : List Member) : List UInt8 := (ms.map code).flatten
def texts (ms : List Member) : List UInt8 := (ms.map text).flatten

@[simp] theorem codes_nil : codes [] = [] := rfl
@[simp] theorem texts_nil : texts [] = [] := rfl
@[simp] theorem codes_cons (m : Member) (ms : List Member) :
    codes (m :: ms) = m.code ++ codes ms := rfl
@[simp] theorem texts_cons (m : Member) (ms : List Member) :
    texts (m :: ms) = m.text ++ texts ms := rfl
@[simp] theorem codes_append (ms ns : List Member) : codes (ms ++ ns) = codes ms ++ codes ns := by
  simp [codes]
@[simp] theorem texts_append (ms ns : List Member) : texts (ms ++ ns) = texts ms ++ texts ns := by
  simp [texts]

theorem length_code (m : Member) :
    m.code.length = m.head.length + (m.body.code.length + m.tail.length) := by simp [code]

theorem code_pos (m : Member) : 0 < m.code.length := by
  have := List.length_pos_iff.mpr m.body.code_ne
  rw [length_code]
  omega

theorem codes_ne_nil {ms : List Member} (h : ms ≠ []) : codes ms ≠ [] := by
  cases ms with
  | nil => exact absurd rfl h
  | cons m ms =>
    have := m.code_pos
    intro hnil
    rw [codes_cons, List.append_eq_nil_iff] at hnil
    simp [hnil.1] at this

end Member

def streamCoding (ms : List Member) : Coding UInt8 := ⟨Member.codes ms, Member.texts ms⟩

def tailedCoding (ms : List Member) (junk : List UInt8) : Coding UInt8 :=
  (streamCoding ms).followed junk

@[simp] theorem tailedCoding_nil (ms : List Member) : tailedCoding ms [] = streamCoding ms := by
  simp [tailedCoding]

theorem tailedCoding_drop (pre : List Member) (m : Member) (post : List Member)
    (junk : List UInt8) {p : ℕ} (hp : p ≤ m.code.length) :
    (tailedCoding (pre ++ m :: post) junk).code.drop ((Member.codes pre).length + p) =
      m.code.drop p ++ (Member.codes post ++ junk) := by
  simp only [tailedCoding, Coding.followed_code, streamCoding, Member.codes_append,
    Member.codes_cons, List.append_assoc]
  rw [List.drop_append, List.drop_eq_nil_of_le (by omega), List.nil_append,
    Nat.add_sub_cancel_left, List.drop_append_of_le_length hp]

theorem streamCoding_text_drop (pre : List Member) (m : Member) (post : List Member) {q : ℕ}
    (hq : q ≤ m.text.length) :
    (streamCoding (pre ++ m :: post)).text.drop ((Member.texts pre).length + q) =
      m.text.drop q ++ Member.texts post := by
  simp only [streamCoding, Member.texts_append, Member.texts_cons]
  rw [List.drop_append, List.drop_eq_nil_of_le (by omega), List.nil_append,
    Nat.add_sub_cancel_left, List.drop_append_of_le_length hq]

/-! ## Valid members -/

namespace WrapKind

/-- A zlib header a decoder without preset dictionaries can use, or a gzip header. -/
def ValidHead : WrapKind → List UInt8 → Prop
  | .none, head => head = []
  | .zlib, head => ∃ cmf flg : UInt8, head = [cmf, flg] ∧ cmf &&& 0x0F = 8 ∧ cmf >>> 4 ≤ 7 ∧
      (cmf.toNat * 256 + flg.toNat) % 31 = 0 ∧ flg &&& 0x20 = 0
  | .gzip, head => ∃ g : GzipFields, head = g.bytes

/-- The checksum a wrapper carries. -/
def checksumOf : WrapKind → List UInt8 → UInt32
  | .gzip, text => mzCrc32 0 text
  | _, text => adler32 text

/-- Adler-32 big-endian; or CRC-32 and the length modulo `2 ^ 32`, little-endian. -/
def tailOf : WrapKind → List UInt8 → List UInt8
  | .none, _ => []
  | .zlib, text => be32 (checksumOf .zlib text)
  | .gzip, text => le32 (checksumOf .gzip text) ++ le32 (UInt32.ofNat text.length)

structure ValidMember (wrap : WrapKind) (Valid : Progressive UInt8 → Prop) (m : Member) :
    Prop where
  head : wrap.ValidHead m.head
  body : Valid m.body
  tail : m.tail = wrap.tailOf m.text

/-- One member, or with `ZU_DEC_CONCAT_MEMBERS` one or more gzip members. -/
structure ValidStream (wrap : WrapKind) (Valid : Progressive UInt8 → Prop) (decFlags : UInt32)
    (ms : List Member) : Prop where
  members : ∀ m ∈ ms, wrap.ValidMember Valid m
  nonempty : ms ≠ []
  single : wrap ≠ .gzip ∨ decFlags &&& decConcatMembers = 0 → ms.length = 1

/-- Whether another member may follow. -/
def MayFollow (wrap : WrapKind) (decFlags : UInt32) : Prop :=
  wrap = .gzip ∧ decFlags &&& decConcatMembers ≠ 0

instance (wrap : WrapKind) (decFlags : UInt32) : Decidable (wrap.MayFollow decFlags) := by
  unfold MayFollow
  infer_instance

/-- Members that are valid but for the trailer of the last, and bytes after them that begin no
valid member. -/
structure TailedStream (wrap : WrapKind) (Valid : Progressive UInt8 → Prop) (decFlags : UInt32)
    (ms : List Member) (junk : List UInt8) : Prop where
  heads : ∀ m ∈ ms, wrap.ValidHead m.head
  bodies : ∀ m ∈ ms, Valid m.body
  tails : ∀ m ∈ ms, m.tail.length = tailLength wrap
  sound : ∀ {pre m post}, ms = pre ++ m :: post → post ≠ [] → m.tail = wrap.tailOf m.text
  nonempty : ms ≠ []
  single : ¬ wrap.MayFollow decFlags → ms.length = 1
  tail : wrap.MayFollow decFlags → gzipMagic <+: junk →
    (gzipHeaderInit.headerError junk).isSome = true

@[simp] theorem length_tailOf (wrap : WrapKind) (text : List UInt8) :
    (wrap.tailOf text).length = tailLength wrap := by
  cases wrap <;> rfl

theorem ValidStream.tailed {wrap : WrapKind} {Valid : Progressive UInt8 → Prop}
    {decFlags : UInt32} {ms : List Member} (h : wrap.ValidStream Valid decFlags ms) :
    wrap.TailedStream Valid decFlags ms [] where
  heads m hm := (h.members m hm).head
  bodies m hm := (h.members m hm).body
  tails m hm := by rw [(h.members m hm).tail, length_tailOf]
  sound {pre m post} heq _ := (h.members m (by simp [heq])).tail
  nonempty := h.nonempty
  single hm := h.single (by unfold MayFollow at hm; tauto)
  tail _ hb := absurd hb.length_le (by simp [gzipMagic])

theorem ValidHead.gzip {head : List UInt8} (h : ValidHead .gzip head) :
    ∃ rest, head = 0x1F :: 0x8B :: rest ∧ 8 ≤ rest.length := by
  obtain ⟨g, rfl⟩ := h
  refine ⟨_, by simp [GzipFields.bytes, GzipFields.covered, GzipFields.fixedPart]; rfl, ?_⟩
  simp only [List.length_cons, List.length_append, g.mtime_length]
  omega

end WrapKind

/-! ## Where all of the text is decodable -/

/-- Position `p` lies within the body of a member and the text of the whole stream can be
decoded from the bytes before it: what is left is the end of the body and the trailer. -/
def TextReady : List Member → ℕ → Prop
  | [], _ => False
  | m :: ms, p =>
    if p < m.code.length then
      m.head.length ≤ p ∧ p < m.head.length + m.body.code.length ∧
        m.body.ready (p - m.head.length) = m.text.length ∧ Member.texts ms = []
    else TextReady ms (p - m.code.length)

theorem textReady_append (pre ms : List Member) (p : ℕ) :
    TextReady (pre ++ ms) ((Member.codes pre).length + p) ↔ TextReady ms p := by
  induction pre with
  | nil => simp
  | cons m pre ih =>
    simp only [List.cons_append, TextReady, Member.codes_cons, List.length_append]
    rw [if_neg (by omega), show m.code.length + (Member.codes pre).length + p - m.code.length =
      (Member.codes pre).length + p by omega, ih]

theorem textReady_lt {ms : List Member} {p : ℕ} (h : TextReady ms p) :
    p < (Member.codes ms).length := by
  induction ms generalizing p with
  | nil => exact h.elim
  | cons m ms ih =>
    simp only [TextReady] at h
    simp only [Member.codes_cons, List.length_append]
    split_ifs at h with hp
    · omega
    · have := ih h
      omega

end Zukomp
